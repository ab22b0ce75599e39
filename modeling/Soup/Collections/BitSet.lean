import Soup.Lib.Bits

/-!
# Bit sets

`DynamicBitSetUnmanaged` and `AutoBitSet` of `bit_set.rs`, with the iterator they share. A `usize`
has 64 bits, and the bytes of a word are in little-endian order. The words of a set are a list, as
many as its length asks for; allocation is left out.
-/

namespace Soup.Collections

open Soup.Lib List

/-- `usize`. -/
abbrev Word := BitVec 64

/-- All bits, or none. -/
def boolMaskUsize (value : Bool) : Word := if value then BitVec.allOnes 64 else 0

/-- The bit of an index in its word. -/
def wordMaskBit (index : ℕ) : Word := (1 : Word) <<< (index % 64)

def wordMaskIndex (index : ℕ) : ℕ := index / 64

/-- The words for so many bits. -/
def numMasksFor (bitLength : ℕ) : ℕ := (bitLength + 63) / 64

/-- The bits of the last word that are not padding. -/
def lastItemMask (bitLength : ℕ) : Word :=
  BitVec.allOnes 64 >>> (numMasksFor bitLength * 64 - bitLength)

/-- The first and the last word are masked. -/
def setRangeValueMasks (masks : List Word) (start stop : ℕ) (value : Bool) : List Word :=
  if start = stop then masks
  else
    let startMaskIndex := wordMaskIndex start
    let startBit := start % 64
    let endMaskIndex := wordMaskIndex stop
    let endBit := stop % 64
    if startMaskIndex = endMaskIndex then
      let masks := masks.modify startMaskIndex fun mask =>
        mask &&& ~~~((boolMaskUsize true <<< startBit) &&&
          (boolMaskUsize true >>> (63 - (endBit - 1))))
      masks.modify startMaskIndex fun mask =>
        mask ||| ((boolMaskUsize value <<< startBit) &&&
          (boolMaskUsize value >>> (63 - (endBit - 1))))
    else
      let masks := if startBit > 0 then masks.modify startMaskIndex fun mask =>
          (mask &&& ~~~(boolMaskUsize true <<< startBit)) ||| (boolMaskUsize value <<< startBit)
        else masks
      let bulkMaskIndex := if startBit > 0 then startMaskIndex + 1 else startMaskIndex
      let masks := masks.mapIdx fun i mask =>
        if bulkMaskIndex ≤ i ∧ i < endMaskIndex then boolMaskUsize value else mask
      if endBit > 0 then masks.modify endMaskIndex fun mask =>
        (mask &&& (boolMaskUsize true <<< endBit)) |||
          (boolMaskUsize value >>> (63 - (endBit - 1)))
      else masks

/-! ## The words -/

section Words

variable (masks other : List Word)

def isSetMasks (index : ℕ) : Bool :=
  (masks.getD (wordMaskIndex index) 0 &&& wordMaskBit index) != 0

def setMasks (index : ℕ) : List Word :=
  masks.modify (wordMaskIndex index) (· ||| wordMaskBit index)

def unsetMasks (index : ℕ) : List Word :=
  masks.modify (wordMaskIndex index) (· &&& ~~~(wordMaskBit index))

def setAllMasks (value : Bool) : List Word := masks.map fun _ => boolMaskUsize value

/-- The padding of the last word is cleared. -/
def clearPadding (bitLength : ℕ) : List Word :=
  masks.modify (numMasksFor bitLength - 1) (· &&& lastItemMask bitLength)

/-- `count_ones` of all words. -/
def countMasks : ℕ := masks.foldl (fun total mask => total + mask.cpop.toNat) 0

/-- The first word that is not zero, and its lowest bit. -/
def findFirstSetMasks : List Word → ℕ → Option ℕ
  | [], _ => none
  | mask :: masks, offset =>
    if mask ≠ 0 then some (offset + mask.ctz.toNat) else findFirstSetMasks masks (offset + 64)

def subsetOfMasks : Bool := (masks.zip other).all fun e => e.1 &&& e.2 == e.1

/-- The word of eight bytes. -/
def wordOfBytes (bytes : List (BitVec 8)) : Word :=
  bytes.foldr (fun byte word => (word <<< 8) ||| byte.setWidth 64) 0

/-- `cast_slice`. -/
def wordsOfBytes (bytes : List (BitVec 8)) (n : ℕ) : List Word :=
  (range n).map fun k => wordOfBytes ((bytes.drop (8 * k)).take 8)

end Words

/-! ## The iterator -/

/-- The words that are left, and the bits of the word that is looked at. -/
structure BitSetIterator where
  bitsRemain : Word := 0
  wordsRemain : List Word
  bitOffset : ℕ := 0
  lastWordMask : Word

namespace BitSetIterator

variable (kindSet dirFwd : Bool)

def nextWord (isFirstWord : Bool) (it : BitSetIterator) : BitSetIterator :=
  let word := if dirFwd then it.wordsRemain.headD 0 else it.wordsRemain.getLastD 0
  let word := if kindSet then word
    else if (!dirFwd && isFirstWord) || (dirFwd && it.wordsRemain.length == 1) then
      ~~~word &&& it.lastWordMask
    else ~~~word
  { it with
    wordsRemain := if dirFwd then it.wordsRemain.tail else it.wordsRemain.dropLast
    bitsRemain := word }

def init (masks : List Word) (lastWordMask : Word) : BitSetIterator :=
  if masks.isEmpty then { wordsRemain := [], lastWordMask }
  else nextWord kindSet dirFwd true
    { wordsRemain := masks, lastWordMask
      bitOffset := if dirFwd then 0 else (masks.length - 1) * 64 }

/-- The loop of `next`, which runs at most once for every word that remains. -/
def skip : ℕ → BitSetIterator → BitSetIterator
  | 0, it => it
  | fuel + 1, it =>
    if it.bitsRemain = 0 ∧ it.wordsRemain ≠ [] then
      let it := nextWord kindSet dirFwd false it
      skip fuel
        { it with bitOffset := if dirFwd then it.bitOffset + 64 else it.bitOffset - 64 }
    else it

/-- Takes the lowest or the highest bit. -/
def next (it : BitSetIterator) : Option ℕ × BitSetIterator :=
  let it := skip kindSet dirFwd it.wordsRemain.length it
  if it.bitsRemain = 0 then (none, it)
  else if dirFwd then
    (some (it.bitsRemain.ctz.toNat + it.bitOffset),
      { it with bitsRemain := it.bitsRemain &&& (it.bitsRemain - 1) })
  else
    let topBit := 64 - 1 - it.bitsRemain.clz.toNat
    (some (topBit + it.bitOffset),
      { it with bitsRemain := it.bitsRemain &&& (((1 : Word) <<< topBit) - 1) })

/-- What `next` gives until it gives nothing, for at most `fuel` times. -/
def drain : ℕ → BitSetIterator → List ℕ
  | 0, _ => []
  | fuel + 1, it =>
    match next kindSet dirFwd it with
    | (none, _) => []
    | (some i, it) => i :: drain fuel it

end BitSetIterator

/-! ## Sets of any length -/

/-- A bit set whose length may change. -/
structure DynamicBitSetUnmanaged where
  bitLength : ℕ := 0
  masks : List Word := []

namespace DynamicBitSetUnmanaged

variable (self other : DynamicBitSetUnmanaged)

/-- `none` reads words that `other` does not have. -/
def zipMasksRaw (f : Word → Word → Word) : Option DynamicBitSetUnmanaged :=
  if self.masks.length ≤ other.masks.length then
    some { self with masks := zipWith f self.masks other.masks }
  else none

/-- New words are filled, and so are the new bits of the last old word. -/
def resize (newLen : ℕ) (fill : Bool) : DynamicBitSetUnmanaged :=
  let oldLen := self.bitLength
  let oldMasks := numMasksFor oldLen
  let newMasks := numMasksFor newLen
  if newMasks = 0 then {}
  else
    let masks := self.masks.take newMasks
    let masks := if newLen > oldLen then
        let masks := if fill && oldMasks > 0 then
            masks.modify (oldMasks - 1)
              (· ||| ~~~(BitVec.allOnes 64 >>> (oldMasks * 64 - oldLen)))
          else masks
        masks ++ replicate (newMasks - oldMasks) (boolMaskUsize fill)
      else masks
    { bitLength := newLen, masks := clearPadding masks newLen }

def initEmpty (bitLength : ℕ) : DynamicBitSetUnmanaged :=
  ({} : DynamicBitSetUnmanaged).resize bitLength false

def clone : DynamicBitSetUnmanaged := { initEmpty self.bitLength with masks := self.masks }

def isSet (index : ℕ) : Bool := isSetMasks self.masks index

/-- The bytes of a set; `none` when there are not as many as the words have. -/
def fromBytes (bitLength : ℕ) (bytes : List (BitVec 8)) : Option DynamicBitSetUnmanaged :=
  let set := initEmpty bitLength
  if bytes.length ≠ 8 * set.masks.length then none
  else
    let words := wordsOfBytes bytes set.masks.length
    some { set with masks := if words = [] then words else clearPadding words bitLength }

def count : ℕ := countMasks self.masks

def set (index : ℕ) : DynamicBitSetUnmanaged := { self with masks := setMasks self.masks index }

def setRangeValue (start stop : ℕ) (value : Bool) : DynamicBitSetUnmanaged :=
  { self with masks := setRangeValueMasks self.masks start stop value }

def unset (index : ℕ) : DynamicBitSetUnmanaged := { self with masks := unsetMasks self.masks index }

def setAll (value : Bool) : DynamicBitSetUnmanaged :=
  if self.bitLength = 0 then self
  else { self with masks := clearPadding (setAllMasks self.masks value) self.bitLength }

def toggleAll : DynamicBitSetUnmanaged :=
  if self.bitLength = 0 then self
  else { self with masks := clearPadding (self.masks.map (~~~ ·)) self.bitLength }

def copyInto : Option DynamicBitSetUnmanaged :=
  if self.bitLength = 0 then some self
  else (self.zipMasksRaw other fun _ b => b).map fun self =>
    { self with masks := clearPadding self.masks self.bitLength }

def setUnion : Option DynamicBitSetUnmanaged := self.zipMasksRaw other fun a b => a ||| b

def setIntersection : Option DynamicBitSetUnmanaged := self.zipMasksRaw other fun a b => a &&& b

def setExclude : Option DynamicBitSetUnmanaged := self.zipMasksRaw other fun a b => a &&& ~~~b

def findFirstSet : Option ℕ := findFirstSetMasks self.masks 0

def eql : Bool := self.bitLength == other.bitLength && self.masks == other.masks

def subsetOf : Bool := self.bitLength == other.bitLength && subsetOfMasks self.masks other.masks

def iterator (kindSet dirFwd : Bool) : BitSetIterator :=
  BitSetIterator.init kindSet dirFwd self.masks (lastItemMask self.bitLength)

end DynamicBitSetUnmanaged

/-! ## Sets of a fixed length -/

/-- `ArrayBitSet`, whose size is not `0`. -/
structure ArrayBitSet (size : ℕ) where
  masks : List Word := replicate (numMasksFor size) 0

namespace ArrayBitSet

variable {size : ℕ} (self other : ArrayBitSet size)

def isSet (index : ℕ) : Bool := isSetMasks self.masks index

def count : ℕ := countMasks self.masks

def set (index : ℕ) : ArrayBitSet size := { masks := setMasks self.masks index }

def unset (index : ℕ) : ArrayBitSet size := { masks := unsetMasks self.masks index }

def setAll (value : Bool) : ArrayBitSet size :=
  { masks := clearPadding (setAllMasks self.masks value) size }

def setUnion : ArrayBitSet size := { masks := zipWith (· ||| ·) self.masks other.masks }

def subsetOf : Bool := subsetOfMasks self.masks other.masks

def findFirstSet : Option ℕ := findFirstSetMasks self.masks 0

def iterator (kindSet dirFwd : Bool) : BitSetIterator :=
  BitSetIterator.init kindSet dirFwd self.masks (lastItemMask size)

end ArrayBitSet

/-- One bit less than a `DynamicBitSetUnmanaged` has. -/
def autoStaticBits : ℕ := 16 * 8 - 1

/-- A bit set without memory of its own up to 127 bits. -/
inductive AutoBitSet
  | static (set : ArrayBitSet autoStaticBits)
  | dynamic (set : DynamicBitSetUnmanaged)

namespace AutoBitSet

def initEmpty (bitLength : ℕ) : AutoBitSet :=
  if bitLength ≤ autoStaticBits then .static {}
  else .dynamic (DynamicBitSetUnmanaged.initEmpty bitLength)

def isSet : AutoBitSet → ℕ → Bool
  | .static b, index => b.isSet index
  | .dynamic b, index => b.isSet index

def set : AutoBitSet → ℕ → AutoBitSet
  | .static b, index => .static (b.set index)
  | .dynamic b, index => .dynamic (b.set index)

def unset : AutoBitSet → ℕ → AutoBitSet
  | .static b, index => .static (b.unset index)
  | .dynamic b, index => .dynamic (b.unset index)

/-- `none` is the panic for sets of different kinds. -/
def setUnion : AutoBitSet → AutoBitSet → Option AutoBitSet
  | .static a, .static b => some (.static (a.setUnion b))
  | .dynamic a, .dynamic b => (a.setUnion b).map .dynamic
  | _, _ => none

def subsetOf : AutoBitSet → AutoBitSet → Option Bool
  | .static a, .static b => some (a.subsetOf b)
  | .dynamic a, .dynamic b => some (a.subsetOf b)
  | _, _ => none

def setAll : AutoBitSet → Bool → AutoBitSet
  | .static b, value => .static (b.setAll value)
  | .dynamic b, value => .dynamic (b.setAll value)

def count : AutoBitSet → ℕ
  | .static b => b.count
  | .dynamic b => b.count

def findFirstSet : AutoBitSet → Option ℕ
  | .static b => b.findFirstSet
  | .dynamic b => b.findFirstSet

def iterator : AutoBitSet → Bool → Bool → BitSetIterator
  | .static b, kindSet, dirFwd => b.iterator kindSet dirFwd
  | .dynamic b, kindSet, dirFwd => b.iterator kindSet dirFwd

end AutoBitSet

end Soup.Collections

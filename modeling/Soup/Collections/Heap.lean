import Soup.Lib.Forest

/-!
# The intrusive pairing heap

The heap of `heap.rs`. A node is a pointer, its `IntrusiveField` is what the memory `fields` has for
it, and null is `none`. `less` is that of the context. The loops take fuel, one for each round;
`for_each` is `walk`, whose phases are its three loops, and gives what it visits.
-/

namespace Soup.Collections

open Function Option

@[ext]
structure IntrusiveField (α : Type) where
  child : Option α := none
  prev : Option α := none
  next : Option α := none

/-- The links of all nodes. -/
abbrev Fields (α : Type) := α → IntrusiveField α

structure Intrusive (α : Type) where
  root : Option α := none
  fields : Fields α := fun _ => {}

variable {α : Type} [DecidableEq α]

namespace Fields

variable (m : Fields α)

def setChild (v : α) (child : Option α) : Fields α := update m v { m v with child }

def setPrev (v : α) (prev : Option α) : Fields α := update m v { m v with prev }

def setNext (v : α) (next : Option α) : Fields α := update m v { m v with next }

/-- A field that is not written. -/
theorem update_field {β : Type*} (f : IntrusiveField α → β) {v u : α} {x : IntrusiveField α}
    (h : f x = f (m v)) : f (update m v x u) = f (m u) := by
  rw [update_apply]
  split
  next hu =>
    rw [h, hu]
  · rfl

section Read

variable (v u : α) (p : Option α)

variable {v u} in
theorem setChild_of_ne (h : u ≠ v) : m.setChild v p u = m u := update_of_ne h ..

variable {v u} in
theorem setPrev_of_ne (h : u ≠ v) : m.setPrev v p u = m u := update_of_ne h ..

variable {v u} in
theorem setNext_of_ne (h : u ≠ v) : m.setNext v p u = m u := update_of_ne h ..

@[simp] theorem child_setChild : (m.setChild v p u).child = if u = v then p else (m u).child := by
  rw [setChild, update_apply]
  split <;> rfl

@[simp] theorem prev_setChild : (m.setChild v p u).prev = (m u).prev := m.update_field (·.prev) rfl

@[simp] theorem next_setChild : (m.setChild v p u).next = (m u).next := m.update_field (·.next) rfl

@[simp] theorem child_setPrev : (m.setPrev v p u).child = (m u).child :=
  m.update_field (·.child) rfl

@[simp] theorem prev_setPrev : (m.setPrev v p u).prev = if u = v then p else (m u).prev := by
  rw [setPrev, update_apply]
  split <;> rfl

@[simp] theorem next_setPrev : (m.setPrev v p u).next = (m u).next := m.update_field (·.next) rfl

@[simp] theorem child_setNext : (m.setNext v p u).child = (m u).child :=
  m.update_field (·.child) rfl

@[simp] theorem prev_setNext : (m.setNext v p u).prev = (m u).prev := m.update_field (·.prev) rfl

@[simp] theorem next_setNext : (m.setNext v p u).next = if u = v then p else (m u).next := by
  rw [setNext, update_apply]
  split <;> rfl

end Read

end Fields

/-! ## Melding -/

section Meld

variable (less : α → α → Bool)

/-- `meld`, where `a` has no next sibling. -/
def meld (m : Fields α) (a b : α) : α × Fields α :=
  if less a b then
    let m := m.setPrev b (some a)
    -- The siblings of `b` are those of `a` then.
    let m := match (m b).next with
      | some bNext => ((m.setNext a (some bNext)).setPrev bNext (some a)).setNext b none
      | none => m
    let m := match (m a).child with
      | some aChild => (m.setNext b (some aChild)).setPrev aChild (some b)
      | none => m
    (a, m.setChild a (some b))
  else
    let m := m.setPrev b (m a).prev
    let m := m.setPrev a (some b)
    let m := match (m b).child with
      | some bChild => (m.setNext a (some bChild)).setPrev bChild (some a)
      | none => m
    (b, m.setChild b (some a))

/-- The loop of `combine_siblings` that merges pairs right. -/
def mergeRight : ℕ → Fields α → α → Option (α × Fields α)
  | 0, _, _ => none
  | fuel + 1, m, a =>
    match (m a).next with
    | none => some (a, m)
    | some b =>
      let (b, m) := meld less (m.setNext a none) a b
      match (m b).next with
      | none => some (b, m)
      | some nextA => mergeRight fuel m nextA

/-- The loop of `combine_siblings` that merges pairs left. -/
def mergeLeft : ℕ → Fields α → α → Option (α × Fields α)
  | 0, _, _ => none
  | fuel + 1, m, root =>
    match (m root).prev with
    | none => some (root, m)
    | some b =>
      let (root, m) := meld less (m.setNext b none) b root
      mergeLeft fuel m root

def combineSiblings (fuel : ℕ) (m : Fields α) (left : α) : Option (α × Fields α) := do
  let (root, m) ← mergeRight less fuel (m.setPrev left none) left
  mergeLeft less fuel m root

end Meld

section Fuel

variable {less : α → α → Bool} {m : Fields α} {a : α} {result : α × Fields α} {fuel : ℕ}

theorem mergeRight_add (more : ℕ) (h : mergeRight less fuel m a = some result) :
    mergeRight less (fuel + more) m a = some result := by
  induction fuel generalizing m a with
  | zero => cases h
  | succ fuel ih =>
    rw [Nat.succ_add]
    unfold mergeRight at h ⊢
    split at h
    · exact h
    · dsimp only at h ⊢
      split at h
      · exact h
      · exact ih h

theorem mergeLeft_add (more : ℕ) (h : mergeLeft less fuel m a = some result) :
    mergeLeft less (fuel + more) m a = some result := by
  induction fuel generalizing m a with
  | zero => cases h
  | succ fuel ih =>
    rw [Nat.succ_add]
    unfold mergeLeft at h ⊢
    split at h
    · exact h
    · exact ih h

theorem combineSiblings_add (more : ℕ) (h : combineSiblings less fuel m a = some result) :
    combineSiblings less (fuel + more) m a = some result := by
  obtain ⟨t, hright, hleft⟩ := bind_eq_some_iff.1 h
  exact bind_eq_some_iff.2 ⟨t, mergeRight_add more hright, mergeLeft_add more hleft⟩

end Fuel

/-! ## Walking -/

/-- The loops of `for_each`: over the nodes, over those that are done, and up to the parent. -/
inductive Phase
  | visit
  | leave
  | climb

def walk (m : Fields α) : ℕ → Phase → α → List α → Option (List α)
  | 0, _, _, _ => none
  | fuel + 1, .visit, node, visited =>
    match (m node).child with
    | some child => walk m fuel .visit child (visited ++ [node])
    | none => walk m fuel .leave node (visited ++ [node])
  | fuel + 1, .leave, node, visited =>
    match (m node).next with
    | some next => walk m fuel .visit next visited
    | none => walk m fuel .climb node visited
  | fuel + 1, .climb, node, visited =>
    match (m node).prev with
    | none => some visited
    | some prev =>
      if (m prev).child ≠ some node then walk m fuel .climb prev visited
      else walk m fuel .leave prev visited

/-! ## Operations -/

namespace Intrusive

variable (less : α → α → Bool) (self : Intrusive α)

def insert (v : α) : Intrusive α :=
  match self.root with
  | some root =>
    let (root, fields) := meld less self.fields v root
    { root := some root, fields }
  | none => { self with root := some v }

/-- What `for_each` visits. -/
def forEach (fuel : ℕ) : Option (List α) :=
  match self.root with
  | none => some []
  | some node => walk self.fields fuel .visit node []

/-- The node that is deleted, and the heap then. -/
def deleteMin (fuel : ℕ) : Option (Option α × Intrusive α) :=
  match self.root with
  | none => some (none, self)
  | some root => do
    let (newRoot, fields) ← match (self.fields root).child with
      | some child => do
        let (newRoot, fields) ← combineSiblings less fuel self.fields child
        some (some newRoot, fields)
      | none => some (none, self.fields)
    some (some root, { root := newRoot, fields := update fields root {} })

/-- The links without a node, where it is not the root. -/
def detach (fields : Fields α) (v prev : α) : Fields α :=
  let vNext := (fields v).next
  let fields := match vNext with
    | some vNext => fields.setPrev vNext (some prev)
    | none => fields
  let fields := if (fields prev).child = some v then fields.setChild prev vNext
    else fields.setNext prev vNext
  (fields.setPrev v none).setNext v none

def remove (fuel : ℕ) (v : α) : Option (Intrusive α) :=
  match (self.fields v).prev with
  | none => do
    let (_, self) ← self.deleteMin less fuel
    some self
  | some prev =>
    let fields := detach self.fields v prev
    match (fields v).child with
    | none => some { self with fields }
    | some child => do
      let (x, fields) ← combineSiblings less fuel (fields.setChild v none) child
      let root ← self.root
      let (root, fields) := meld less fields x root
      some { root := some root, fields }

variable {less self} {fuel : ℕ} {v : α}

theorem deleteMin_add (more : ℕ) {result : Option α × Intrusive α}
    (h : self.deleteMin less fuel = some result) :
    self.deleteMin less (fuel + more) = some result := by
  unfold deleteMin at h ⊢
  split at h
  · exact h
  · dsimp only at h ⊢
    split at h
    · obtain ⟨t, hcombine, ht⟩ := bind_eq_some_iff.1 h
      exact bind_eq_some_iff.2 ⟨t, combineSiblings_add more hcombine, ht⟩
    · exact h

theorem remove_add (more : ℕ) {result : Intrusive α} (h : self.remove less fuel v = some result) :
    self.remove less (fuel + more) v = some result := by
  unfold remove at h ⊢
  split at h
  · obtain ⟨t, hdelete, ht⟩ := bind_eq_some_iff.1 h
    exact bind_eq_some_iff.2 ⟨t, deleteMin_add more hdelete, ht⟩
  · dsimp only at h ⊢
    split at h
    · exact h
    · obtain ⟨t, hcombine, ht⟩ := bind_eq_some_iff.1 h
      exact bind_eq_some_iff.2 ⟨t, combineSiblings_add more hcombine, ht⟩

end Intrusive

end Soup.Collections

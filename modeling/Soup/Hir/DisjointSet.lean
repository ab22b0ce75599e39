import Soup.Lib.ParentMap

/-!
# Disjoint sets

`disjoint_set.rs`: an insertion-ordered map from items to parents. `find` goes up to the root and
points what it passed at it, but for the last item below the root, which points there already.
`union` points the roots of its items at the root of the first.

The map is its entries in insertion order, without the table that `id_map.rs` finds a place in. The
loops run with fuel, the number of entries, and `none` is a loop that is not at its end then.
-/

namespace Soup.Hir

open Soup.Lib List Function Nat

/-- `IdMap`: the entries in insertion order, one for each key. -/
structure IdMap (K V : Type) where
  entries : List (K × V)
  nodup : (entries.map Prod.fst).Nodup

namespace IdMap

variable {K V : Type} [DecidableEq K]

def empty : IdMap K V := ⟨[], nodup_nil⟩

def keys (m : IdMap K V) : List K := m.entries.map Prod.fst

def get (m : IdMap K V) (k : K) : Option V := (m.entries.find? fun e => e.1 = k).map Prod.snd

/-- The entries with `v` at `k`: in the place of what was there, or behind the others. -/
def entriesWith (entries : List (K × V)) (k : K) (v : V) : List (K × V) :=
  if (entries.map Prod.fst).contains k then entries.map fun e => if e.1 = k then (k, v) else e
  else entries ++ [(k, v)]

theorem keys_entriesWith (entries : List (K × V)) (k : K) (v : V) :
    (entriesWith entries k v).map Prod.fst =
      if (entries.map Prod.fst).contains k then entries.map Prod.fst
        else entries.map Prod.fst ++ [k] := by
  rw [entriesWith]
  split
  · rw [map_map]
    refine map_congr_left fun e _ => ?_
    rw [comp_apply]
    split
    next heq => exact heq.symm
    next => rfl
  · rw [map_append]
    rfl

/-- What was at the key, and the map. -/
def insert (m : IdMap K V) (k : K) (v : V) : Option V × IdMap K V :=
  (m.get k, ⟨entriesWith m.entries k v, by
    rw [keys_entriesWith]
    split
    next => exact m.nodup
    next hnew =>
      rw [Bool.not_eq_true, contains_eq_mem, decide_eq_false_iff_not] at hnew
      exact m.nodup.append (nodup_singleton k) (disjoint_singleton.2 hnew)⟩)

theorem isSome_get {m : IdMap K V} {k : K} : (m.get k).isSome = true ↔ k ∈ m.keys := by
  rw [get, Option.isSome_map, find?_isSome, keys, mem_map]
  simp only [decide_eq_true_eq]

theorem keys_insert (m : IdMap K V) (k : K) (v : V) :
    (m.insert k v).2.keys = if k ∈ m.keys then m.keys else m.keys ++ [k] := by
  rw [keys, insert, keys_entriesWith, contains_eq_mem, ← keys]
  simp only [decide_eq_true_eq]

/-- What a key finds in the entries with `v` at `k`. -/
theorem find?_entriesWith (entries : List (K × V)) (k : K) (v : V) (j : K) :
    ((entriesWith entries k v).find? fun e => e.1 = j).map Prod.snd =
      if j = k then some v else (entries.find? fun e => e.1 = j).map Prod.snd := by
  rw [entriesWith]
  split
  next hk =>
    have hkey : (fun e : K × V => decide (e.1 = j)) ∘ (fun e => if e.1 = k then (k, v) else e) =
        fun e => decide (e.1 = j) := by
      funext e
      rw [comp_apply]
      split
      next heq => rw [heq]
      next => rfl
    rw [find?_map, hkey, Option.map_map]
    rcases hfound : entries.find? fun e => e.1 = j with _ | e
    · have hne : j ≠ k := by
        rintro rfl
        obtain ⟨e, he, heq⟩ := mem_map.1 (contains_iff_mem.1 hk)
        exact find?_eq_none.1 hfound e he (decide_eq_true heq)
      rw [hfound, if_neg hne]
      rfl
    · have heq : e.1 = j := by simpa using find?_some hfound
      rw [hfound, Option.map_some, Option.map_some, comp_apply, heq]
      split <;> rfl
  next hk =>
    rw [find?_append]
    by_cases heq : j = k
    · have hnone : (entries.find? fun e => e.1 = j) = none := by
        refine find?_eq_none.2 fun e he hej => hk (contains_iff_mem.2 ?_)
        exact mem_map.2 ⟨e, he, (of_decide_eq_true hej).trans heq⟩
      rw [hnone, if_pos heq, Option.none_or, heq]
      simp
    · rw [if_neg heq, find?_cons_of_neg (by simpa using Ne.symm heq), find?_nil, Option.or_none]

theorem get_insert (m : IdMap K V) (k : K) (v : V) :
    (m.insert k v).2.get = update m.get k (some v) := by
  funext j
  rw [get, insert, find?_entriesWith, update_apply]
  rfl

end IdMap

/-- `DisjointSet`. -/
structure DisjointSet (K : Type) where
  entries : IdMap K K

namespace DisjointSet

variable {K : Type} [DecidableEq K]

def new : DisjointSet K := ⟨.empty⟩

/-- The first loop of `find`: the root, the item below it, and the entries, where the root is one
now. -/
def findLoop (entries : IdMap K K) : ℕ → K → K → Option (K × K × IdMap K K)
  | 0, _, _ => none
  | fuel + 1, root, childOfRoot =>
    match entries.get root with
    | some parent =>
      if parent ≠ root then findLoop entries fuel parent root else some (root, childOfRoot, entries)
    | none => some (root, childOfRoot, (entries.insert root root).2)

/-- The second loop of `find`. -/
def compressLoop (root childOfRoot : K) : ℕ → IdMap K K → K → Option (IdMap K K)
  | 0, _, _ => none
  | fuel + 1, entries, current =>
    if current ≠ childOfRoot then
      compressLoop root childOfRoot fuel (entries.insert current root).2
        ((entries.insert current root).1.getD childOfRoot)
    else some entries

def find (self : DisjointSet K) (item : K) : Option (K × DisjointSet K) := do
  let (root, childOfRoot, entries) ← findLoop self.entries (self.entries.keys.length + 1) item item
  let entries ← compressLoop root childOfRoot (self.entries.keys.length + 1) entries item
  some (root, ⟨entries⟩)

def findOpt (self : DisjointSet K) (item : K) : Option (Option K × DisjointSet K) :=
  if (self.entries.get item).isNone then some (none, self)
  else (self.find item).map fun found => (some found.1, found.2)

/-- The body of the loop of `union`. -/
def unionItem (root : K) (self : DisjointSet K) (item : K) : Option (DisjointSet K) :=
  (self.find item).map fun found =>
    if found.1 ≠ root then ⟨(found.2.entries.insert found.1 root).2⟩ else found.2

def union (self : DisjointSet K) : List K → Option (DisjointSet K)
  | [] => some self
  | first :: items => do
    let (root, self) ← self.find first
    items.foldlM (unionItem root) self

/-- The loop of `for_each`, with the calls of `f` as the items and their groups. -/
def forEachLoop : List K → DisjointSet K → Option (List (K × K) × DisjointSet K)
  | [], self => some ([], self)
  | item :: items, self => do
    let (group, self) ← self.find item
    let (calls, self) ← forEachLoop items self
    some ((item, group) :: calls, self)

def forEach (self : DisjointSet K) : Option (List (K × K) × DisjointSet K) :=
  forEachLoop self.entries.keys self

/-! ## Finding -/

section Find

variable {self s s' : DisjointSet K} {entries : IdMap K K} {root child current item r : K}
  {i n fuel : ℕ}

theorem findLoop_leads (hleads : Leads entries.get n root r) (hfuel : n < fuel) (child : K) :
    ∃ child', findLoop entries fuel root child = some (r, child', entries) ∧
      (n = 0 ∧ child' = child ∨
        ∃ i, n = i + 1 ∧ Path entries.get i root child' ∧ entries.get child' = some r ∧
          r ≠ child') := by
  obtain ⟨hpath, hr⟩ := hleads
  induction hpath generalizing fuel child with
  | here root =>
    obtain ⟨fuel, rfl⟩ := exists_eq_succ_of_ne_zero (ne_of_gt hfuel)
    refine ⟨child, ?_, .inl ⟨rfl, rfl⟩⟩
    rw [findLoop, hr]
    exact if_neg (not_not.2 rfl)
  | @up n root p c hroot hne hpath ih =>
    obtain ⟨fuel, rfl⟩ := Nat.exists_eq_succ_of_ne_zero (Nat.ne_zero_of_lt hfuel)
    obtain ⟨child', hloop, hchild⟩ := ih (lt_of_succ_lt_succ hfuel) root hr
    refine ⟨child', ?_, .inr ⟨n, rfl, ?_⟩⟩
    · rw [findLoop, hroot]
      exact (if_pos hne).trans hloop
    · rcases hchild with ⟨rfl, rfl⟩ | ⟨i, rfl, hway, hchild, hne'⟩
      · cases hpath with
        | here => exact ⟨.here _, hroot, hne⟩
      · exact ⟨.up hroot hne hway, hchild, hne'⟩

/-- What the way to the item below the root passes is pointed at the root. -/
theorem compressLoop_path (hpath : Path entries.get i current child)
    (hchild : entries.get child = some r)
    (hne : r ≠ child) (hr : entries.get r = some r) (hfuel : i < fuel) :
    ∃ entries', compressLoop r child fuel entries current = some entries' ∧
      entries'.keys = entries.keys ∧
      ∀ b s, IsRootOf entries.get b s → IsRootOf entries'.get b s := by
  induction i generalizing current entries fuel with
  | zero =>
    obtain ⟨fuel, rfl⟩ := exists_eq_succ_of_ne_zero (ne_of_gt hfuel)
    cases hpath with
    | here =>
      refine ⟨entries, ?_, rfl, fun b s h => h⟩
      rw [compressLoop, if_neg (not_not.2 rfl)]
  | succ i ih =>
    obtain ⟨fuel, rfl⟩ := Nat.exists_eq_succ_of_ne_zero (Nat.ne_zero_of_lt hfuel)
    have hbelow : Leads entries.get 1 child r := (Leads.root hr).up hchild hne
    have hcurrent := Leads.of_path hpath hbelow
    cases hpath with
    | @up _ _ p _ hp hpne hpath =>
      have hne_child : current ≠ child := by
        rintro rfl
        have := (hcurrent.unique hbelow).1
        omega
      have hne_root : r ≠ current := by
        rintro rfl
        have := (hcurrent.unique (.root hr)).1
        omega
      have hget := IdMap.get_insert entries current r
      have hway : Path (entries.insert current r).2.get i p child := by
        rw [hget]
        exact hpath.update_of_lt hbelow hcurrent (by omega) _
      obtain ⟨entries', hloop, hkeys, hroots⟩ := ih hway
        (by rw [hget, update_of_ne (Ne.symm hne_child), hchild])
        (by rw [hget, update_of_ne hne_root, hr]) (lt_of_succ_lt_succ hfuel)
      refine ⟨entries', ?_, ?_, fun b s hb => hroots b s ?_⟩
      · rw [compressLoop, if_pos hne_child, show (entries.insert current r).1 = some p from hp]
        exact hloop
      · rw [hkeys, IdMap.keys_insert, if_pos]
        rw [← IdMap.isSome_get, hp]
        rfl
      · rw [hget]
        exact hb.compress hcurrent hne_root

/-- `s'` has the roots of `s`. -/
def Keeps (s s' : DisjointSet K) : Prop :=
  ∀ b r, IsRootOf s.entries.get b r → IsRootOf s'.entries.get b r

/-- `find` gives the root and keeps all roots. -/
theorem find_spec (h : IsForest self.entries.get) (item : K) :
    ∃ r s', self.find item = some (r, s') ∧
    IsRootOf self.entries.get item r ∧ Keeps self s' ∧ s'.entries.get r = some r ∧
    s'.entries.keys = if item ∈ self.entries.keys then self.entries.keys
      else self.entries.keys ++ [item] := by
  rcases hget : self.entries.get item with _ | p
  · have hnew : item ∉ self.entries.keys := by
      rw [← IdMap.isSome_get, hget]
      exact Bool.false_ne_true
    refine ⟨item, ⟨(self.entries.insert item item).2⟩, ?_, .inr ⟨hget, rfl⟩, fun b r hb => ?_, ?_,
      ?_⟩
    · rw [find, findLoop, hget]
      simp only [Option.bind_eq_bind, Option.bind_some]
      rw [compressLoop, if_neg (not_not.2 rfl)]
      rfl
    · show IsRootOf (self.entries.insert item item).2.get b r
      rw [IdMap.get_insert]
      exact hb.insert hget
    · show (self.entries.insert item item).2.get item = _
      rw [IdMap.get_insert, update_self]
    · exact IdMap.keys_insert ..
  · have hsome : (self.entries.get item).isSome = true := by
      rw [hget]
      rfl
    obtain ⟨n, r, hleads⟩ := h item hsome
    have hfuel : n < self.entries.keys.length := hleads.lt_length fun b => IdMap.isSome_get.1
    obtain ⟨child, hloop, hchild⟩ := findLoop_leads hleads (Nat.lt_add_right 1 hfuel) item
    rw [find, hloop, if_pos (IdMap.isSome_get.1 hsome)]
    simp only [Option.bind_eq_bind, Option.bind_some]
    rcases hchild with ⟨rfl, rfl⟩ | ⟨i, rfl, hpath, hchild, hne⟩
    · rw [compressLoop, if_neg (not_not.2 rfl)]
      exact ⟨r, self, rfl, .inl ⟨_, hleads⟩, fun b s hb => hb, hleads.2, rfl⟩
    · obtain ⟨entries', hcompress, hkeys', hroots⟩ := compressLoop_path hpath hchild hne hleads.2
        (show i < self.entries.keys.length + 1 by omega)
      rw [hcompress]
      refine ⟨r, ⟨entries'⟩, rfl, .inl ⟨_, hleads⟩, hroots, ?_, hkeys'⟩
      rcases hroots r r (.inl ⟨0, .root hleads.2⟩) with ⟨n, hleads'⟩ | ⟨hnone, -⟩
      · exact hleads'.2
      · rw [← Option.not_isSome_iff_eq_none, IdMap.isSome_get, hkeys', ← IdMap.isSome_get,
          hleads.2] at hnone
        exact absurd rfl hnone

end Find

/-! ## Classes -/

/-- The roots are those of the classes of `R`, and the entries are the items `M`. -/
structure Represents (R : K → K → Prop) (M : K → Prop) (s : DisjointSet K) : Prop where
  forest : IsForest s.entries.get
  connected : ∀ a b, forest.root a = forest.root b ↔ Relation.EqvGen R a b
  mentioned : ∀ a, a ∈ s.entries.keys ↔ M a

section Classes

variable {R R' : K → K → Prop} {M M' : K → Prop} {s s' : DisjointSet K} {item x r : K}

section

variable (h : Represents R M s)
include h

theorem Represents.congr (hR : ∀ a b, Relation.EqvGen R a b ↔ Relation.EqvGen R' a b)
    (hM : ∀ a, M a ↔ M' a) : Represents R' M' s :=
  ⟨h.forest, fun a b => (h.connected a b).trans (hR a b), fun a => (h.mentioned a).trans (hM a)⟩

/-- Where a root goes to, the classes go with it. -/
theorem Represents.of_roots (f : K → K)
    (hroots : ∀ b r, IsRootOf s.entries.get b r → IsRootOf s'.entries.get b (f r))
    (hR : ∀ a b, f (h.forest.root a) = f (h.forest.root b) ↔ Relation.EqvGen R' a b)
    (hM : ∀ a, a ∈ s'.entries.keys ↔ M' a) : Represents R' M' s' := by
  have hforest := h.forest.of_isRootOf f hroots
  refine ⟨hforest, fun a b => ?_, hM⟩
  rw [hforest.root_eq_iff.2 (hroots a _ (h.forest.isRootOf_root a)),
    hforest.root_eq_iff.2 (hroots b _ (h.forest.isRootOf_root b))]
  exact hR a b

theorem Represents.find (item : K) : ∃ r s', s.find item = some (r, s') ∧
    IsRootOf s.entries.get item r ∧ Keeps s s' ∧ s'.entries.get r = some r ∧
    Represents R (fun a => M a ∨ a = item) s' := by
  obtain ⟨r, s', hfind, hr, hkeeps, hself, hkeys⟩ := find_spec h.forest item
  refine ⟨r, s', hfind, hr, hkeeps, hself, h.of_roots id hkeeps h.connected fun a => ?_⟩
  rw [hkeys, ← h.mentioned a]
  split
  next hmem => exact ⟨.inl, fun hor => hor.elim id fun heq => heq ▸ hmem⟩
  next => rw [mem_append, mem_singleton]

/-- An item joins the class of `x`, whose root is `r`. -/
theorem Represents.unionItem (hx : IsRootOf s.entries.get x r)
    (hr : s.entries.get r = some r) (item : K) : ∃ s', unionItem r s item = some s' ∧
      Represents (fun a b => R a b ∨ a = x ∧ b = item) (fun a => M a ∨ a = item) s' ∧
      IsRootOf s'.entries.get x r ∧ s'.entries.get r = some r := by
  obtain ⟨t, s₁, hfind, ht, hkeeps, hself, h₁⟩ := h.find item
  have hroot_x : h₁.forest.root x = r := h₁.forest.root_eq_iff.2 (hkeeps x r hx)
  have hroot_item : h₁.forest.root item = t := h₁.forest.root_eq_iff.2 (hkeeps item t ht)
  have hr₁ : s₁.entries.get r = some r := by
    rcases hkeeps r r hx.self with ⟨n, hleads⟩ | ⟨hnone, -⟩
    · exact hleads.2
    · have hmem :=
        (h₁.mentioned r).2 (.inl ((h.mentioned r).1 (IdMap.isSome_get.1 (by rw [hr]; rfl))))
      rw [← IdMap.isSome_get, hnone] at hmem
      cases hmem
  have hjoin := eqvGen_join h₁.connected x item
  rw [hroot_x, hroot_item] at hjoin
  rw [DisjointSet.unionItem, hfind, Option.map_some]
  split
  next hne =>
    have hne' : r ≠ t := Ne.symm hne
    have hget := IdMap.get_insert s₁.entries t r
    have hroots : ∀ b u, IsRootOf s₁.entries.get b u →
        IsRootOf (s₁.entries.insert t r).2.get b (if u = t then r else u) := fun b u hb => by
      rw [hget]
      exact hb.link hself hr₁ hne'
    refine ⟨_, rfl, h₁.of_roots (fun u => if u = t then r else u) hroots hjoin fun a => ?_, ?_, ?_⟩
    · show a ∈ (s₁.entries.insert t r).2.keys ↔ _
      rw [IdMap.keys_insert, if_pos (IdMap.isSome_get.1 (by rw [hself]; rfl)), h₁.mentioned]
    · have := hroots x r (hkeeps x r hx)
      rwa [if_neg hne'] at this
    · show (s₁.entries.insert t r).2.get r = some r
      rw [hget, update_of_ne hne', hr₁]
  next heq =>
    have heq : t = r := not_not.1 heq
    have hsame : ∀ u : K, (if u = r then r else u) = u := fun u => ite_eq_right_iff.2 Eq.symm
    refine ⟨s₁, rfl, h₁.congr (fun a b => ?_) fun _ => Iff.rfl, hkeeps x r hx, hr₁⟩
    rw [← hjoin a b, ← h₁.connected a b, heq, hsame, hsame]

theorem Represents.unionItems (hx : IsRootOf s.entries.get x r)
    (hr : s.entries.get r = some r) (items : List K) :
    ∃ s', items.foldlM (DisjointSet.unionItem r) s = some s' ∧
      Represents (fun a b => R a b ∨ a = x ∧ b ∈ items) (fun a => M a ∨ a ∈ items) s' := by
  induction items generalizing s R M with
  | nil =>
    refine ⟨s, rfl, h.congr (fun a b => ?_) fun a => ?_⟩
    · simp only [not_mem_nil, and_false, or_false]
    · simp only [not_mem_nil, or_false]
  | cons item items ih =>
    obtain ⟨s₁, hunion, h₁, hx₁, hr₁⟩ := h.unionItem hx hr item
    obtain ⟨s₂, hfold, h₂⟩ := ih h₁ hx₁ hr₁
    refine ⟨s₂, ?_, h₂.congr (fun a b => ?_) fun a => ?_⟩
    · rw [foldlM_cons, hunion]
      exact hfold
    · simp only [mem_cons, and_or_left, or_assoc]
    · rw [mem_cons, or_assoc]

theorem Represents.union (items : List K) : ∃ s', s.union items = some s' ∧
    Represents (fun a b => R a b ∨ a ∈ items ∧ b ∈ items) (fun a => M a ∨ a ∈ items) s' := by
  cases items with
  | nil =>
    refine ⟨s, rfl, h.congr (fun a b => ?_) fun a => ?_⟩
    · simp only [not_mem_nil, and_false, or_false]
    · simp only [not_mem_nil, or_false]
  | cons first items =>
    obtain ⟨r, s₁, hfind, hroot, hkeeps, hself, h₁⟩ := h.find first
    obtain ⟨s₂, hfold, h₂⟩ := h₁.unionItems (hkeeps first r hroot) hself items
    refine ⟨s₂, ?_, h₂.congr
      (fun a b => ⟨Relation.EqvGen.eqvGen_le ?_ a b, Relation.EqvGen.eqvGen_le ?_ a b⟩) fun a => ?_⟩
    · rw [DisjointSet.union, hfind]
      exact hfold
    · rintro a b (hab | ⟨rfl, hb⟩)
      · exact .rel _ _ (.inl hab)
      · exact .rel _ _ (.inr ⟨mem_cons_self, mem_cons_of_mem _ hb⟩)
    · have hfirst : ∀ a ∈ first :: items,
          Relation.EqvGen (fun a b => R a b ∨ a = first ∧ b ∈ items) first a := fun a ha => by
        rcases mem_cons.1 ha with rfl | ha
        · exact .refl a
        · exact .rel _ _ (.inr ⟨rfl, ha⟩)
      rintro a b (hab | ⟨ha, hb⟩)
      · exact .rel _ _ (.inl hab)
      · exact ((hfirst a ha).symm _ _).trans _ _ _ (hfirst b hb)
    · rw [mem_cons, or_assoc]

/-- `for_each` calls with each item and its root. -/
theorem Represents.forEachLoop (items : List K) (hitems : ∀ a ∈ items, M a) :
    ∃ groups s', forEachLoop items s = some (groups, s') ∧ Represents R M s' ∧
      groups.map Prod.fst = items ∧ ∀ g ∈ groups, IsRootOf s.entries.get g.1 g.2 := by
  induction items generalizing s with
  | nil => exact ⟨[], s, rfl, h, rfl, fun g hg => absurd hg not_mem_nil⟩
  | cons item items ih =>
    rw [forall_mem_cons] at hitems
    obtain ⟨r, s₁, hfind, hr, hkeeps, -, h₁⟩ := h.find item
    have h₁ : Represents R M s₁ := h₁.congr (fun _ _ => Iff.rfl) fun a =>
      ⟨fun hor => hor.elim id fun heq => heq ▸ hitems.1, .inl⟩
    obtain ⟨groups, s₂, hloop, h₂, hkeys, hgroups⟩ := ih h₁ hitems.2
    refine ⟨(item, r) :: groups, s₂, ?_, h₂, by rw [map_cons, hkeys], ?_⟩
    · rw [DisjointSet.forEachLoop, hfind]
      simp only [Option.bind_eq_bind, Option.bind_some]
      rw [hloop]
      rfl
    · rintro g hg
      rcases mem_cons.1 hg with rfl | hg
      · exact hr
      · have hroot := h.forest.isRootOf_root g.1
        rwa [(hgroups g hg).unique (hkeeps g.1 _ hroot)]

end

end Classes

/-! ## Calls -/

inductive Call (K : Type)
  | union (items : List K)
  | find (item : K)
  | findOpt (item : K)
  | forEach

/-- What a call leaves. -/
def call (s : DisjointSet K) : Call K → Option (DisjointSet K)
  | .union items => s.union items
  | .find item => (s.find item).map Prod.snd
  | .findOpt item => (s.findOpt item).map Prod.snd
  | .forEach => s.forEach.map Prod.snd

def run (s : DisjointSet K) (calls : List (Call K)) : Option (DisjointSet K) := calls.foldlM call s

/-- The call makes one set of the items. -/
def Call.Joins (c : Call K) (a b : K) : Prop := ∃ items, c = .union items ∧ a ∈ items ∧ b ∈ items

/-- The call adds the item, if it is not there. -/
def Call.Mentions (c : Call K) (a : K) : Prop :=
  (∃ items, c = .union items ∧ a ∈ items) ∨ c = .find a

/-- Connected by the unions among the calls. -/
def Connected (calls : List (Call K)) : K → K → Prop :=
  Relation.EqvGen fun a b => ∃ c ∈ calls, c.Joins a b

def Mentioned (calls : List (Call K)) (a : K) : Prop := ∃ c ∈ calls, c.Mentions a

section Calls

variable {R : K → K → Prop} {M : K → Prop} {s : DisjointSet K}

theorem Represents.call (h : Represents R M s) (c : Call K) : ∃ s', s.call c = some s' ∧
    Represents (fun a b => R a b ∨ c.Joins a b) (fun a => M a ∨ c.Mentions a) s' := by
  cases c with
  | union items =>
    obtain ⟨s', hunion, h'⟩ := h.union items
    refine ⟨s', hunion, h'.congr (fun a b => ?_) fun a => ?_⟩
    · simp [Call.Joins]
    · simp [Call.Mentions]
  | find item =>
    obtain ⟨r, s', hfind, -, -, -, h'⟩ := h.find item
    refine ⟨s', by rw [DisjointSet.call, hfind]; rfl, h'.congr (fun a b => ?_) fun a => ?_⟩
    · simp [Call.Joins]
    · simp [Call.Mentions, eq_comm]
  | findOpt item =>
    have hnothing : Represents (fun a b => R a b ∨ (Call.findOpt item).Joins a b)
        (fun a => M a ∨ (Call.findOpt item).Mentions a) s :=
      h.congr (fun a b => by simp [Call.Joins]) fun a => by simp [Call.Mentions]
    rw [DisjointSet.call, findOpt]
    split
    next => exact ⟨s, rfl, hnothing⟩
    next hsome =>
      rw [Bool.not_eq_true, Option.isNone_eq_false_iff] at hsome
      obtain ⟨r, s', hfind, -, -, -, h'⟩ := hnothing.find item
      rw [hfind]
      refine ⟨s', rfl, h'.congr (fun _ _ => Iff.rfl) fun a => ?_⟩
      have hitem := (hnothing.mentioned item).1 (IdMap.isSome_get.1 hsome)
      refine ⟨fun hor => hor.elim id fun heq => ?_, .inl⟩
      rw [heq]
      exact hitem
  | forEach =>
    obtain ⟨groups, s', hloop, h', -, -⟩ :=
      h.forEachLoop s.entries.keys fun a ha => (h.mentioned a).1 ha
    refine ⟨s', by rw [DisjointSet.call, forEach, hloop]; rfl, h'.congr (fun a b => ?_) fun a => ?_⟩
    · simp [Call.Joins]
    · simp [Call.Mentions]

theorem Represents.run (h : Represents R M s) (calls : List (Call K)) :
    ∃ s', s.run calls = some s' ∧
    Represents (fun a b => R a b ∨ ∃ c ∈ calls, c.Joins a b)
      (fun a => M a ∨ ∃ c ∈ calls, c.Mentions a) s' := by
  induction calls generalizing s R M with
  | nil =>
    refine ⟨s, rfl, h.congr (fun a b => ?_) fun a => ?_⟩
    · simp only [not_mem_nil, false_and, exists_false, or_false]
    · simp only [not_mem_nil, false_and, exists_false, or_false]
  | cons c calls ih =>
    obtain ⟨s₁, hcall, h₁⟩ := h.call c
    obtain ⟨s₂, hrun, h₂⟩ := ih h₁
    refine ⟨s₂, ?_, h₂.congr (fun a b => ?_) fun a => ?_⟩
    · rw [DisjointSet.run, foldlM_cons, hcall]
      exact hrun
    · simp only [exists_mem_cons_iff, or_assoc]
    · simp only [exists_mem_cons_iff, or_assoc]

theorem represents_new : Represents (fun _ _ => False) (fun _ => False) (new : DisjointSet K) where
  forest := fun a ha => by cases ha
  connected := fun a b => by
    have hforest : IsForest (new : DisjointSet K).entries.get := fun a ha => by cases ha
    have hroot : ∀ a, hforest.root a = a := fun a => hforest.root_eq_iff.2 (.inr ⟨rfl, rfl⟩)
    rw [hroot, hroot]
    constructor
    · rintro rfl
      exact .refl a
    · intro hab
      induction hab with
      | rel a b hab => exact hab.elim
      | refl a => rfl
      | symm a b _ ih => exact ih.symm
      | trans a b c _ _ ih ih' => exact ih.trans ih'
  mentioned := fun a => by simp [new, IdMap.empty, IdMap.keys]

/-- After any calls the sets are the classes of the unions. -/
theorem run_classes (calls : List (Call K)) : ∃ s, run new calls = some s ∧
    (∀ a, ∃ r s', s.find a = some (r, s') ∧ Connected calls a r ∧
      ∀ b, (s'.find b).map Prod.fst = (s.find b).map Prod.fst) ∧
    (∀ a b, (s.find a).map Prod.fst = (s.find b).map Prod.fst ↔ Connected calls a b) ∧
    (∀ a, ((s.findOpt a).map Prod.fst = some none ↔ ¬Mentioned calls a) ∧
      (Mentioned calls a → (s.findOpt a).map Prod.fst = (s.find a).map fun found => some found.1)) ∧
    ∃ groups s', s.forEach = some (groups, s') ∧ (groups.map Prod.fst).Nodup ∧
      (∀ a, a ∈ groups.map Prod.fst ↔ Mentioned calls a) ∧
      ∀ g ∈ groups, (s.find g.1).map Prod.fst = some g.2 := by
  obtain ⟨s, hrun, h⟩ := represents_new.run calls
  have h : Represents (fun a b => ∃ c ∈ calls, c.Joins a b) (Mentioned calls) s :=
    h.congr (fun a b => by simp only [false_or]) fun a => by rw [false_or]; rfl
  have hfind : ∀ {s : DisjointSet K}
    (hs : Represents (fun a b => ∃ c ∈ calls, c.Joins a b) (Mentioned calls) s) (a : K),
      (s.find a).map Prod.fst = some (hs.forest.root a) := fun hs a => by
    obtain ⟨r, s', hfind, hr, -⟩ := hs.find a
    rw [hfind, hs.forest.root_eq_iff.2 hr]
    rfl
  refine ⟨s, hrun, fun a => ?_, fun a b => ?_, fun a => ⟨?_, fun ha => ?_⟩, ?_⟩
  · obtain ⟨r, s', hfound, hr, hkeeps, -, h'⟩ := h.find a
    refine ⟨r, s', hfound, (h.connected a r).1 ?_, fun b => ?_⟩
    · rw [h.forest.root_eq_iff.2 hr, h.forest.root_eq_iff.2 hr.self]
    · obtain ⟨t, s'', hfound', ht, -⟩ := h'.find b
      rw [hfound', hfind h b, Option.map_some, ht.unique (hkeeps b _ (h.forest.isRootOf_root b))]
  · rw [hfind h, hfind h, Option.some_inj]
    exact h.connected a b
  · rw [← h.mentioned, findOpt, ← IdMap.isSome_get]
    split
    next hnone =>
      rw [Option.isNone_iff_eq_none] at hnone
      rw [hnone]
      exact iff_of_true rfl Bool.false_ne_true
    next hsome =>
      rw [Bool.not_eq_true, Option.isNone_eq_false_iff] at hsome
      obtain ⟨r, s', hfound, -⟩ := h.find a
      rw [hfound]
      exact iff_of_false (fun heq => by cases heq) fun hnone => hnone hsome
  · have hsome := IdMap.isSome_get.2 ((h.mentioned a).2 ha)
    rw [findOpt, if_neg (by rw [Option.isNone_eq_false_iff.2 hsome]; exact Bool.false_ne_true),
      Option.map_map]
    rfl
  · obtain ⟨groups, s', hloop, -, hkeys, hgroups⟩ :=
      h.forEachLoop s.entries.keys fun a ha => (h.mentioned a).1 ha
    refine ⟨groups, s', hloop, ?_, fun a => ?_, fun g hg => ?_⟩
    · rw [hkeys]
      exact s.entries.nodup
    · rw [hkeys]
      exact h.mentioned a
    · rw [hfind h, h.forest.root_eq_iff.2 (hgroups g hg)]

end Calls

end DisjointSet

end Soup.Hir

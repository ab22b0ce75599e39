import Soup.Collections.Heap

/-!
# Links

The links of a heap represent a forest (`Linked`): the first child of a node and its next sibling
have it as `prev`. Melding two trees gives the tree with the one under the other, before what is
there (`meld_linked`), and no link of another node is written.
-/

namespace Soup.Collections

open Soup.Lib List Option Forest

variable {α : Type}

/-- The links represent a forest whose first node has `prev`. -/
def Linked (m : Fields α) : Option α → Forest α → Option α → Prop
  | _, .nil, first => first = none
  | prev, .node v kids rest, first =>
    first = some v ∧ (m v).prev = prev ∧ Linked m (some v) kids (m v).child ∧
      Linked m (some v) rest (m v).next

namespace Linked

variable {m m' : Fields α} {prev prev' first : Option α} {f kids rest : Forest α} {v : α}

theorem first_eq (h : Linked m prev f first) : first = f.first := by
  cases f with
  | nil => exact h
  | node v kids rest => exact h.1

theorem congr : ∀ {f : Forest α} {prev first : Option α}, Linked m prev f first →
    (∀ v ∈ f.nodes, m' v = m v) → Linked m' prev f first
  | .nil, _, _, h, _ => h
  | .node v kids rest, _, _, ⟨hfirst, hprev, hkids, hrest⟩, hm => by
    have hv := hm v (mem_cons_self ..)
    refine ⟨hfirst, by rw [hv, hprev], ?_, ?_⟩
    · rw [hv]
      exact hkids.congr fun u hu => hm u (mem_cons_of_mem _ (mem_append_left _ hu))
    · rw [hv]
      exact hrest.congr fun u hu => hm u (mem_cons_of_mem _ (mem_append_right _ hu))

/-- Another `prev` for the first node. -/
theorem reprev (h : Linked m prev f first) (hnodup : f.nodes.Nodup)
    (hfirst : ∀ v, f.first = some v → m' v = { m v with prev := prev' })
    (hrest : ∀ v ∈ f.nodes, f.first ≠ some v → m' v = m v) : Linked m' prev' f first := by
  cases f with
  | nil => exact h
  | node v kids rest =>
    obtain ⟨hf, hprev, hkids, hr⟩ := h
    have hv := hfirst v rfl
    have hne : ∀ u ∈ kids.nodes ++ rest.nodes, m' u = m u := fun u hu => by
      refine hrest u (mem_cons_of_mem _ hu) fun hu' => ?_
      obtain rfl := some.inj hu'
      exact (nodup_cons.1 hnodup).1 hu
    refine ⟨hf, by rw [hv], ?_, ?_⟩
    · rw [hv]
      exact hkids.congr fun u hu => hne u (mem_append_left _ hu)
    · rw [hv]
      exact hr.congr fun u hu => hne u (mem_append_right _ hu)

end Linked

section Meld

variable [DecidableEq α] {less : α → α → Bool} {m : Fields α} {a b : α}

/-- `a` stays, with `b` as its first child. -/
theorem meld_of_less (h : less a b = true) (hnext : (m a).next = none) :
    ∃ m', meld less m a b = (a, m') ∧ ∀ x,
      (m' x).child = (if x = a then some b else (m x).child) ∧
      (m' x).next =
        (if x = b then (m a).child else if x = a then (m b).next else (m x).next) ∧
      (m' x).prev =
        (if (m a).child = some x then some b else if (m b).next = some x then some a
          else if x = b then some a else (m x).prev) := by
  rw [meld, if_pos h]
  refine ⟨_, rfl, fun x => ?_⟩
  cases hn : (m b).next with
  | none =>
    cases hc : (m a).child with
    | none => simp [hn, hc]; grind
    | some ac => simp [hn, hc]; grind
  | some bn =>
    cases hc : (m a).child with
    | none => simp [hn, hc]; grind
    | some ac => simp [hn, hc]; grind

/-- `b` takes the place of `a`, which becomes its first child. -/
theorem meld_of_not_less (h : less a b = false) (hnext : (m a).next = none) :
    ∃ m', meld less m a b = (b, m') ∧ ∀ x,
      (m' x).child = (if x = b then some a else (m x).child) ∧
      (m' x).next = (if x = a then (m b).child else (m x).next) ∧
      (m' x).prev =
        (if (m b).child = some x then some a else if x = a then some b
          else if x = b then (m a).prev else (m x).prev) := by
  rw [meld, if_neg (by simp [h])]
  refine ⟨_, rfl, fun x => ?_⟩
  cases hc : (m b).child with
  | none => simp [hc]; grind
  | some bc => simp [hc]; grind

variable {pa pb : Option α} {ka kb rb : Forest α}

/-- The root of two trees that are melded, and what is under it. -/
def melded (less : α → α → Bool) (a : α) (ka : Forest α) (b : α) (kb : Forest α) : α × Forest α :=
  if less a b then (a, .node b kb ka) else (b, .node a ka kb)

/-- The nodes of two trees and of what follows the second are all different. -/
structure Apart (a : α) (ka : Forest α) (b : α) (kb rb : Forest α) : Prop where
  ne : a ≠ b
  left : a ∉ ka.nodes ∧ a ∉ kb.nodes ∧ a ∉ rb.nodes
  right : b ∉ ka.nodes ∧ b ∉ kb.nodes ∧ b ∉ rb.nodes
  kids : ∀ x ∈ ka.nodes, x ∉ kb.nodes
  rest : ∀ x ∈ rb.nodes, x ∉ ka.nodes ∧ x ∉ kb.nodes
  nodup : ka.nodes.Nodup ∧ kb.nodes.Nodup ∧ rb.nodes.Nodup

omit [DecidableEq α] in
theorem apart_of_nodup (h : (a :: (ka.nodes ++ (b :: (kb.nodes ++ rb.nodes)))).Nodup) :
    Apart a ka b kb rb := by
  simp only [nodup_cons, nodup_append, mem_append, mem_cons, not_or] at h
  obtain ⟨ha, hka, ⟨hb, hkb, hrb, hdisjoint⟩, hdisjoint'⟩ := h
  refine ⟨ha.2.1, ⟨ha.1, ha.2.2⟩, ⟨fun h => hdisjoint' b h b (.inl rfl) rfl, hb⟩,
    fun x hx hx' => hdisjoint' x hx x (.inr (.inl hx')) rfl,
      fun x hx => ⟨fun hx' => ?_, fun hx' => ?_⟩,
    hka, hkb, hrb⟩
  · exact hdisjoint' x hx' x (.inr (.inr hx)) rfl
  · exact hdisjoint x hx' x hx rfl

omit [DecidableEq α] in
theorem Apart.ne_roots (h : Apart a ka b kb rb) {x : α}
    (hx : x ∈ ka.nodes ∨ x ∈ kb.nodes ∨ x ∈ rb.nodes) : x ≠ a ∧ x ≠ b := by
  constructor
  · rintro rfl
    exact hx.elim h.left.1 fun hx => hx.elim h.left.2.1 h.left.2.2
  · rintro rfl
    exact hx.elim h.right.1 fun hx => hx.elim h.right.2.1 h.right.2.2

variable (less) in
theorem meld_linked (ha : Linked m pa (.node a ka .nil) (some a))
    (hb : Linked m pb (.node b kb rb) (some b)) (h : Apart a ka b kb rb) :
    ∃ m', meld less m a b = ((melded less a ka b kb).1, m') ∧
      Linked m' pa (.node (melded less a ka b kb).1 (melded less a ka b kb).2 rb)
        (some (melded less a ka b kb).1) ∧
      ∀ x, x ≠ a → x ≠ b → x ∉ ka.nodes → x ∉ kb.nodes → x ∉ rb.nodes → m' x = m x := by
  obtain ⟨-, hpa, hka, hna⟩ := ha
  obtain ⟨-, hpb, hkb, hrb⟩ := hb
  have hca : ∀ x, (m a).child = some x → x ∈ ka.nodes := fun x hx =>
    first_mem (hka.first_eq.symm.trans hx)
  have hcb : ∀ x, (m b).child = some x → x ∈ kb.nodes := fun x hx =>
    first_mem (hkb.first_eq.symm.trans hx)
  have hnb : ∀ x, (m b).next = some x → x ∈ rb.nodes := fun x hx =>
    first_mem (hrb.first_eq.symm.trans hx)
  have hne := h.ne
  cases hless : less a b with
  | true =>
    obtain ⟨m', hm', hfields⟩ := meld_of_less hless hna
    have hsame : ∀ x, x ≠ a ∧ x ≠ b → (m a).child ≠ some x → (m b).next ≠ some x → m' x = m x := by
      rintro x ⟨hxa, hxb⟩ hc hn
      obtain ⟨hchild, hnext, hprev⟩ := hfields x
      rw [if_neg hxa] at hchild
      rw [if_neg hxb, if_neg hxa] at hnext
      rw [if_neg hc, if_neg hn, if_neg hxb] at hprev
      exact IntrusiveField.ext hchild hprev hnext
    obtain ⟨hchilda, hnexta, hpreva⟩ := hfields a
    obtain ⟨hchildb, hnextb, hprevb⟩ := hfields b
    rw [if_pos rfl] at hchilda hnextb
    rw [if_neg hne, if_pos rfl] at hnexta
    rw [if_neg (fun hc => h.left.1 (hca a hc)), if_neg (fun hc => h.left.2.2 (hnb a hc)),
      if_neg hne] at hpreva
    rw [if_neg hne.symm] at hchildb
    rw [if_neg (fun hc => h.right.1 (hca b hc)), if_neg (fun hc => h.right.2.2 (hnb b hc)),
      if_pos rfl] at hprevb
    rw [melded, if_pos hless]
    refine ⟨m', hm', ⟨rfl, hpreva.trans hpa, ⟨hchilda, hprevb, ?_, ?_⟩, ?_⟩, ?_⟩
    · rw [hchildb]
      refine hkb.congr fun x hx => hsame x (h.ne_roots (.inr (.inl hx))) ?_ ?_
      · exact fun hc => h.kids x (hca x hc) hx
      · exact fun hn => (h.rest x (hnb x hn)).2 hx
    · rw [hnextb]
      refine hka.reprev h.nodup.1 (fun x hx => ?_) fun x hx hf =>
        hsame x (h.ne_roots (.inl hx)) ?_ ?_
      · have hc := hka.first_eq.trans hx
        obtain ⟨hxa, hxb⟩ := h.ne_roots (.inl (hca x hc))
        obtain ⟨hchild, hnext, hprev⟩ := hfields x
        rw [if_neg hxa] at hchild
        rw [if_neg hxb, if_neg hxa] at hnext
        rw [if_pos hc] at hprev
        exact IntrusiveField.ext hchild hprev hnext
      · exact fun hc => hf (hka.first_eq.symm.trans hc)
      · exact fun hn => (h.rest x (hnb x hn)).1 hx
    · rw [hnexta]
      refine hrb.reprev h.nodup.2.2 (fun x hx => ?_) fun x hx hf =>
        hsame x (h.ne_roots (.inr (.inr hx))) ?_ ?_
      · have hn := hrb.first_eq.trans hx
        obtain ⟨hxa, hxb⟩ := h.ne_roots (.inr (.inr (hnb x hn)))
        obtain ⟨hchild, hnext, hprev⟩ := hfields x
        rw [if_neg hxa] at hchild
        rw [if_neg hxb, if_neg hxa] at hnext
        rw [if_neg fun hc => (h.rest x (hnb x hn)).1 (hca x hc), if_pos hn] at hprev
        exact IntrusiveField.ext hchild hprev hnext
      · exact fun hc => (h.rest x hx).1 (hca x hc)
      · exact fun hn => hf (hrb.first_eq.symm.trans hn)
    · intro x hxa hxb hka hkb hrb
      exact hsame x ⟨hxa, hxb⟩ (fun hc => hka (hca x hc)) (fun hn => hrb (hnb x hn))
  | false =>
    obtain ⟨m', hm', hfields⟩ := meld_of_not_less hless hna
    have hsame : ∀ x, x ≠ a ∧ x ≠ b → (m b).child ≠ some x → m' x = m x := by
      rintro x ⟨hxa, hxb⟩ hc
      obtain ⟨hchild, hnext, hprev⟩ := hfields x
      rw [if_neg hxb] at hchild
      rw [if_neg hxa] at hnext
      rw [if_neg hc, if_neg hxa, if_neg hxb] at hprev
      exact IntrusiveField.ext hchild hprev hnext
    obtain ⟨hchilda, hnexta, hpreva⟩ := hfields a
    obtain ⟨hchildb, hnextb, hprevb⟩ := hfields b
    rw [if_neg hne] at hchilda
    rw [if_pos rfl] at hnexta
    rw [if_neg (fun hc => h.left.2.1 (hcb a hc)), if_pos rfl] at hpreva
    rw [if_pos rfl] at hchildb
    rw [if_neg hne.symm] at hnextb
    rw [if_neg (fun hc => h.right.2.1 (hcb b hc)), if_neg hne.symm, if_pos rfl] at hprevb
    rw [melded, if_neg (by simp [hless])]
    refine ⟨m', hm', ⟨rfl, hprevb.trans hpa, ⟨hchildb, hpreva, ?_, ?_⟩, ?_⟩, ?_⟩
    · rw [hchilda]
      exact hka.congr fun x hx => hsame x (h.ne_roots (.inl hx)) fun hc => h.kids x hx (hcb x hc)
    · rw [hnexta]
      refine hkb.reprev h.nodup.2.1 (fun x hx => ?_) fun x hx hf =>
        hsame x (h.ne_roots (.inr (.inl hx))) fun hc => hf (hkb.first_eq.symm.trans hc)
      have hc := hkb.first_eq.trans hx
      obtain ⟨hxa, hxb⟩ := h.ne_roots (.inr (.inl (hcb x hc)))
      obtain ⟨hchild, hnext, hprev⟩ := hfields x
      rw [if_neg hxb] at hchild
      rw [if_neg hxa] at hnext
      rw [if_pos hc] at hprev
      exact IntrusiveField.ext hchild hprev hnext
    · rw [hnextb]
      exact hrb.congr fun x hx => hsame x (h.ne_roots (.inr (.inr hx))) fun hc =>
        (h.rest x hx).2 (hcb x hc)
    · intro x hxa hxb hka hkb hrb
      exact hsame x ⟨hxa, hxb⟩ fun hc => hkb (hcb x hc)

omit [DecidableEq α] in
variable (less a ka b kb) in
theorem nodes_melded : ((melded less a ka b kb).1 :: (melded less a ka b kb).2.nodes).Perm
    (a :: ka.nodes ++ b :: kb.nodes) := by
  rw [melded]
  split
  · show (a :: (b :: kb.nodes ++ ka.nodes)).Perm (a :: (ka.nodes ++ b :: kb.nodes))
    exact perm_append_comm.cons a
  · show (b :: (a :: ka.nodes ++ kb.nodes)).Perm (a :: ka.nodes ++ b :: kb.nodes)
    exact perm_middle.symm

end Meld

section Detach

variable [DecidableEq α] {m : Fields α} {v q : α}

open Intrusive (detach)

theorem fields_detach (x : α) :
    (detach m v q x).child =
        (if x = q ∧ (m q).child = some v then (m v).next else (m x).child) ∧
      (detach m v q x).next =
        (if x = v then none else if x = q ∧ (m q).child ≠ some v then (m v).next else (m x).next) ∧
      (detach m v q x).prev =
        (if x = v then none else if (m v).next = some x then some q else (m x).prev) := by
  rw [detach]
  cases hn : (m v).next with
  | none =>
    by_cases hc : (m q).child = some v
    · simp [hc]
    · simp [hc]
  | some vn =>
    by_cases hc : (m q).child = some v
    · simp [hc]; grind
    · simp [hc]; grind

/-- The other links are left. -/
theorem detach_eq {x : α} (hxv : x ≠ v) (hxq : x ≠ q) (hn : (m v).next ≠ some x) :
    detach m v q x = m x := by
  obtain ⟨hchild, hnext, hprev⟩ := fields_detach (m := m) (v := v) (q := q) x
  rw [if_neg fun h => hxq h.1] at hchild
  rw [if_neg hxv, if_neg fun h => hxq h.1] at hnext
  rw [if_neg hxv, if_neg hn] at hprev
  exact IntrusiveField.ext hchild hprev hnext

/-- What follows the node that is taken out gets its `prev`. -/
theorem detach_rest {rest : Forest α} (h : Linked m (some v) rest (m v).next)
    (hnodup : rest.nodes.Nodup) (hv : v ∉ rest.nodes) (hqr : q ∉ rest.nodes) :
    Linked (detach m v q) (some q) rest (m v).next := by
  refine h.reprev hnodup (fun x hx => ?_) fun x hx hf => detach_eq ?_ ?_ fun hn => ?_
  · have hmem := first_mem hx
    obtain ⟨hchild, hnext, hprev⟩ := fields_detach (m := m) (v := v) (q := q) x
    have hxq : x ≠ q := fun hxq => hqr (hxq ▸ hmem)
    have hxv : x ≠ v := fun hxv => hv (hxv ▸ hmem)
    rw [if_neg fun h => hxq h.1] at hchild
    rw [if_neg hxv, if_neg fun h => hxq h.1] at hnext
    rw [if_neg hxv, if_pos (h.first_eq.trans hx)] at hprev
    exact IntrusiveField.ext hchild hprev hnext
  · exact fun hxv => hv (hxv ▸ hx)
  · exact fun hxq => hqr (hxq ▸ hx)
  · exact hf (h.first_eq.symm.trans hn)

/-- The links are left where the node is in another forest. -/
theorem detach_eq_of_not_mem {f : Forest α} (hv : v ∈ f.nodes) (hq : q ∈ (f.cut v).nodes)
    (hn : ∀ x, (m v).next = some x → x ∈ (f.cut v).nodes) {x : α}
    (hx : x ∉ f.nodes) : detach m v q x = m x :=
  detach_eq (fun h => hx (h ▸ hv)) (fun h => hx (h ▸ f.cut_subset hq))
    fun h => hx (f.cut_subset (hn x h))

/-- The first of its siblings is taken out. -/
theorem detach_first : ∀ {f : Forest α} {first : Option α}, Linked m (some q) f first →
    f.nodes.Nodup → q ∉ f.nodes → f.first = some v → first = some v ∧ (m v).prev = some q ∧
      (∀ x, (m v).next = some x → x ∈ (f.cut v).nodes) ∧ Linked (detach m v q) (some q) (f.cut v)
      (m v).next
  | .nil, _, _, _, _, hv => by cases hv
  | .node w kids rest, _, ⟨hfirst, hprev, _, hrest⟩, hnodup, hq, hv => by
    obtain rfl := some.inj hv
    obtain ⟨hw, hnodup'⟩ := nodup_cons.1 hnodup
    rw [mem_append, not_or] at hw
    rw [cut_first]
    exact ⟨hfirst, hprev, fun x hx => first_mem (hrest.first_eq.symm.trans hx),
      detach_rest hrest (nodup_append.1 hnodup').2.1 hw.2
        fun h => hq (mem_cons_of_mem _ (mem_append_right _ h))⟩

/-- A node that is not the first is taken out. -/
theorem detach_linked : ∀ {f : Forest α} {prev first : Option α}, Linked m prev f first →
    f.nodes.Nodup → v ∈ f.nodes → f.first ≠ some v →
    ∃ q, (m v).prev = some q ∧ q ∈ (f.cut v).nodes ∧
      (∀ x, (m v).next = some x → x ∈ (f.cut v).nodes) ∧
      Linked (detach m v q) prev (f.cut v) first
  | .nil, _, _, _, _, hv, _ => by cases hv
  | .node u kids rest, prev, first, ⟨hfirst, hprev, hkids, hrest⟩, hnodup, hv, hne => by
    have huv : u ≠ v := fun h => hne (h ▸ rfl)
    obtain ⟨hu, hnodup'⟩ := nodup_cons.1 hnodup
    obtain ⟨hnk, hnr, hdisjoint⟩ := nodup_append.1 hnodup'
    rw [mem_append, not_or] at hu
    rw [cut_node huv]
    rcases mem_append.1 ((mem_cons.1 hv).resolve_left huv.symm) with hv | hv
    · have hvr : v ∉ rest.nodes := fun h => hdisjoint v hv v h rfl
      rw [cut_of_not_mem hvr]
      by_cases hkf : kids.first = some v
      · -- The first child: `child` of its parent becomes what follows it.
        obtain ⟨hchild, hprevv, hmem, hlinked⟩ := detach_first hkids hnk hu.1 hkf
        have hkids' : ∀ x, (m v).next = some x → x ∈ kids.nodes :=
          fun x hx => kids.cut_subset (hmem x hx)
        refine ⟨u, hprevv, mem_cons_self .., fun x hx => mem_cons_of_mem _
          (mem_append_left _ (hmem x hx)), hfirst, ?_, ?_, ?_⟩
        · rw [(fields_detach u).2.2, if_neg huv, if_neg fun h => hu.1 (hkids' u h), hprev]
        · rw [(fields_detach u).1, if_pos ⟨rfl, hchild⟩]
          exact hlinked
        · rw [(fields_detach u).2.1, if_neg huv, if_neg fun h => h.2 hchild]
          exact hrest.congr fun x hx => detach_eq (fun h => hvr (h ▸ hx))
            (fun h => hu.2 (h ▸ hx)) fun h => hdisjoint x (hkids' x h) x hx rfl
      · obtain ⟨q, hq, hqmem, hn, hlinked⟩ := detach_linked hkids hnk hv hkf
        have hsame : ∀ x ∉ kids.nodes, detach m v q x = m x := fun x hx =>
          detach_eq_of_not_mem hv hqmem hn hx
        refine ⟨q, hq, mem_cons_of_mem _ (mem_append_left _ hqmem), fun x hx =>
          mem_cons_of_mem _ (mem_append_left _ (hn x hx)), hfirst, ?_, ?_, ?_⟩
        · rw [hsame u hu.1, hprev]
        · rw [hsame u hu.1]
          exact hlinked
        · rw [hsame u hu.1]
          exact hrest.congr fun x hx => hsame x fun h => hdisjoint x h x hx rfl
    · have hvk : v ∉ kids.nodes := fun h => hdisjoint v h v hv rfl
      rw [cut_of_not_mem hvk]
      by_cases hrf : rest.first = some v
      · -- The next sibling: `next` of the one before becomes what follows it.
        obtain ⟨hnext, hprevv, hmem, hlinked⟩ := detach_first hrest hnr hu.2 hrf
        have hrest' : ∀ x, (m v).next = some x → x ∈ rest.nodes :=
          fun x hx => rest.cut_subset (hmem x hx)
        have hchild : (m u).child ≠ some v := fun h =>
          hvk (first_mem (hkids.first_eq.symm.trans h))
        refine ⟨u, hprevv, mem_cons_self .., fun x hx => mem_cons_of_mem _
          (mem_append_right _ (hmem x hx)), hfirst, ?_, ?_, ?_⟩
        · rw [(fields_detach u).2.2, if_neg huv, if_neg fun h => hu.2 (hrest' u h), hprev]
        · rw [(fields_detach u).1, if_neg fun h => hchild h.2]
          exact hkids.congr fun x hx => detach_eq (fun h => hvk (h ▸ hx))
            (fun h => hu.1 (h ▸ hx)) fun h => hdisjoint x hx x (hrest' x h) rfl
        · rw [(fields_detach u).2.1, if_neg huv, if_pos ⟨rfl, hchild⟩]
          exact hlinked
      · obtain ⟨q, hq, hqmem, hn, hlinked⟩ := detach_linked hrest hnr hv hrf
        have hsame : ∀ x ∉ rest.nodes, detach m v q x = m x := fun x hx =>
          detach_eq_of_not_mem hv hqmem hn hx
        refine ⟨q, hq, mem_cons_of_mem _ (mem_append_right _ hqmem), fun x hx =>
          mem_cons_of_mem _ (mem_append_right _ (hn x hx)), hfirst, ?_, ?_, ?_⟩
        · rw [hsame u hu.2, hprev]
        · rw [hsame u hu.2]
          exact hkids.congr fun x hx => hsame x fun h => hdisjoint x hx x h rfl
        · rw [hsame u hu.2]
          exact hlinked

/-- What is under a node is linked to it. -/
theorem Linked.under : ∀ {f : Forest α} {prev first : Option α}, Linked m prev f first →
    v ∈ f.nodes → Linked m (some v) (f.under v) (m v).child
  | .nil, _, _, _, hv => by cases hv
  | .node u kids rest, _, _, ⟨_, _, hkids, hrest⟩, hv => by
    rw [Forest.under]
    split
    next huv =>
      rwa [huv] at hkids
    next huv =>
      split
      · exact hkids.under ‹_›
      · exact hrest.under (((mem_cons.1 hv).resolve_left (Ne.symm huv)
          |> mem_append.1).resolve_left ‹_›)

end Detach

end Soup.Collections

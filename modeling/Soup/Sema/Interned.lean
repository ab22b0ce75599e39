import Soup.Sema.Tables

/-!
# Interned names are faithful

A session `Refines` the lists of texts of its interners: an interner finds in its base what was
there when it was made, and then its own texts, and a cache has atoms of the interner that it was
last used for only. Every call answers as the lists do (`call_refines`), so a run does
(`run_refines`), whatever the hashes and the caches.
-/

namespace Soup.Sema

open Lib List Function Option Nat Session

variable {hasher : Hasher} {roundTrips : Bytes → Bool} {known : List Bytes}

/-- The tables of an interner have its texts. -/
structure Interner.Shows (hasher : Hasher) (roundTrips : Bytes → Bool) (s : Session) (place : ℕ)
    (it : Interner) (n : Names) (own base : Tables) : Prop where
  interner : s.interners[place]? = some it
  tables : it.tables = place
  number : it.number = place + 1
  ownTable : s.tables[place]? = some own
  baseTable : s.tables[it.base]? = some base
  shared : own.isShared = n.isShared
  valid : own.Valid hasher roundTrips it.first
  nodup : n.texts.Nodup
  first_le : it.first ≤ base.texts.length
  texts : n.texts = base.texts.take it.first ++ own.texts
  layer : it.first ≠ 0 → base.isShared = true
  common : n.isShared = true → it.first = 0

/-- The entries of a cache are atoms of an interner. -/
structure Cached (entries : List RecentEntry) (texts : List Bytes) : Prop where
  length : entries.length = 2 ^ recentBits
  entry : ∀ e ∈ entries, e = emptyEntry ∨ ∃ text : Bytes, text.length ≤ maxPackedLen ∧
    e.packed = packShort text ∧ texts[e.atom]? = some text

/-- The session has the interners, and its caches only have their atoms. -/
structure Session.Refines (hasher : Hasher) (roundTrips : Bytes → Bool) (s : Session)
    (ns : List Names) : Prop where
  tables : s.tables.length = ns.length
  interners : s.interners.length = ns.length
  nextNumber : s.nextNumber = ns.length + 1
  shows : ∀ (i : ℕ) (n : Names), ns[i]? = some n →
    ∃ (it : Interner) (own base : Tables), it.Shows hasher roundTrips s i n own base
  recents : ∀ c, (s.recents c).internerNumber = 0 ∨ ∃ (i : ℕ) (n : Names),
    (s.recents c).internerNumber = i + 1 ∧ ns[i]? = some n ∧ Cached (s.recents c).entries n.texts

theorem Session.refines_empty : Session.Refines hasher roundTrips {} [] :=
  ⟨rfl, rfl, rfl, fun i n h => (by cases h), fun _ => .inl rfl⟩

namespace Session

variable {s : Session} {ns : List Names} {i cache : ℕ} {n : Names} {it : Interner}
  {own base : Tables}
  {text : Bytes}

theorem table_eq {place : ℕ} {t : Tables} (h : s.tables[place]? = some t) :
    s.table place = .ok t := by
  rw [table, h]

section

variable (hs : s.Refines hasher roundTrips ns) (h : it.Shows hasher roundTrips s i n own base)
include hs h

/-- The base of a layer is found by its own numbers. -/
theorem base_valid (hlayer : it.first ≠ 0) : base.Valid hasher roundTrips 0 := by
  have hlt : it.base < ns.length := hs.tables ▸ (List.getElem?_eq_some_iff.1 h.baseTable).1
  obtain ⟨it', own', base', h'⟩ := hs.shows it.base ns[it.base] (getElem?_eq_getElem hlt)
  obtain rfl := some.inj (h.baseTable.symm.trans h'.ownTable)
  have hfirst := h'.common (h'.shared ▸ h.layer hlayer)
  exact hfirst ▸ h'.valid

theorem findInBase_spec (text : Bytes) : ∃ r, s.findInBase it (hasher.hashOf text) text = .ok r ∧
      (∀ atom, r = some atom → n.texts[atom]? = some text) ∧
      (r = none → text ∉ base.texts.take it.first) := by
  rw [findInBase]
  split
  next hzero =>
    refine ⟨none, rfl, fun atom h => (by cases h), fun _ => ?_⟩
    rw [hzero, take_zero]
    exact not_mem_nil
  next hlayer =>
    rw [table_eq h.baseTable, ok_bind]
    obtain ⟨r, hr, hsome, hnone⟩ := (base_valid hs h hlayer).find_below rfl it.first text
    refine ⟨r, hr, fun atom hatom => ?_, hnone⟩
    obtain ⟨hlt, htext⟩ := hsome atom hatom
    rw [h.texts, getElem?_append_left (by rw [length_take]; have := h.first_le; omega),
      getElem?_take, if_pos hlt]
    exact htext

variable {atom : ℕ}

omit hs in
theorem getElem?_own (hle : it.first ≤ atom) : n.texts[atom]? = own.texts[atom - it.first]? := by
  have hlength : (base.texts.take it.first).length = it.first := length_take_of_le h.first_le
  rw [h.texts, getElem?_append_right (hlength.symm ▸ hle), hlength]

/-- The search among the texts of the base, and then among the interner's own. -/
theorem find_spec
    (text : Bytes) : (∃ atom, s.findInBase it (hasher.hashOf text) text = .ok (some atom) ∧
      n.texts[atom]? = some text) ∨
    s.findInBase it (hasher.hashOf text) text = .ok none ∧
      ((∃ atom, own.find (hasher.hashOf text) (own.isOwn it.first text) = .ok (some atom) ∧
        n.texts[atom]? = some text) ∨
      own.find (hasher.hashOf text) (own.isOwn it.first text) = .ok none ∧ text ∉ n.texts) := by
  obtain ⟨r, hr, hsome, hnone⟩ := findInBase_spec hs h text
  cases r with
  | some atom => exact .inl ⟨atom, hr, hsome atom rfl⟩
  | none =>
    refine .inr ⟨hr, ?_⟩
    obtain ⟨r', hr', hsome', hnone'⟩ := h.valid.find_own text
    cases r' with
    | some atom =>
      obtain ⟨hle, htext⟩ := hsome' atom rfl
      exact .inl ⟨atom, hr', (getElem?_own h hle).trans htext⟩
    | none =>
      refine .inr ⟨hr', ?_⟩
      rw [h.texts, mem_append, not_or]
      exact ⟨hnone rfl, hnone' rfl⟩

/-! ## Lookups -/

theorem lookup_spec (text : Bytes) : s.lookup hasher it text = .ok (n.lookup text) := by
  have hself : s.table it.tables = .ok own := table_eq (h.tables ▸ h.ownTable)
  rw [lookup]
  rcases find_spec hs h text with ⟨atom, hbase, htext⟩ | ⟨hbase, ⟨atom, hown, htext⟩ | ⟨hown, hnew⟩⟩
  · rw [hbase, (Names.lookup_eq_some h.nodup).2 htext]
    rfl
  · rw [hbase, ok_bind]
    rw [hself, ok_bind, hown, (Names.lookup_eq_some h.nodup).2 htext]
  · rw [hbase, ok_bind]
    rw [hself, ok_bind, hown, Names.lookup_eq_none.2 hnew]

section

variable (htext : n.texts[atom]? = some text)
include htext

theorem tableOf_spec : ∃ t index, s.tableOf it atom = .ok (t, index) ∧
      t.texts[index]? = some text ∧ t.classAt index = classOf roundTrips text := by
  rw [tableOf]
  split
  next hle =>
    have hown := (getElem?_own h hle).symm.trans htext
    refine ⟨own, atom - it.first, ?_, hown, h.valid.classes _ text hown⟩
    rw [table_eq (h.tables ▸ h.ownTable)]
    rfl
  next hgt =>
    have hlt := not_le.1 hgt
    have hlength : (base.texts.take it.first).length = it.first := length_take_of_le h.first_le
    rw [h.texts, getElem?_append_left (hlength.symm ▸ hlt), getElem?_take, if_pos hlt] at htext
    refine ⟨base, atom, ?_, htext,
      (base_valid hs h (ne_of_gt (zero_lt_of_lt hlt))).classes _ text htext⟩
    rw [table_eq h.baseTable]
    rfl

theorem bytes_spec : s.bytes it atom = .ok text := by
  obtain ⟨t, index, htable, hindex, -⟩ := tableOf_spec hs h htext
  rw [bytes, htable, ok_bind]
  dsimp only
  rw [hindex]

theorem classAt_spec : s.classAt it atom = .ok (classOf roundTrips text) := by
  obtain ⟨t, index, htable, -, hclass⟩ := tableOf_spec hs h htext
  rw [classAt, htable, ok_bind]
  dsimp only
  rw [hclass]

/-! ## New texts -/

end

omit hs h in
theorem set_getElem? {ns : List Names} (h : ns[i]? = some n) : ns.set i n = ns := by
  obtain ⟨hlt, rfl⟩ := List.getElem?_eq_some_iff.1 h
  exact set_getElem_self hlt

variable {entries : List RecentEntry} {texts texts' : List Bytes}

omit hs h in
theorem cached_mono
    (h : Cached entries texts) (hpre : texts <+: texts') : Cached entries texts' where
  length := h.length
  entry e he := by
    obtain ⟨more, rfl⟩ := hpre
    refine (h.entry e he).imp_right (Exists.imp fun text htext => ⟨htext.1, htext.2.1, ?_⟩)
    rw [getElem?_append_left (List.getElem?_eq_some_iff.1 htext.2.2).1]
    exact htext.2.2

omit hs h in
/-- A table keeps its texts when one of them is added. -/
theorem exists_table {own' : Tables} {k : ℕ} {t : Tables} (hown : s.tables[i]? = some own)
    (hshared : own'.isShared = own.isShared) (htexts : own'.texts = own.texts ++ [text])
    (ht : s.tables[k]? = some t) : ∃ t', (s.tables.set i own')[k]? = some t' ∧
      t'.isShared = t.isShared ∧ t.texts <+: t'.texts := by
  by_cases hk : k = i
  · subst hk
    obtain rfl := some.inj (hown.symm.trans ht)
    refine ⟨own', getElem?_set_self (List.getElem?_eq_some_iff.1 hown).1, hshared, ?_⟩
    rw [htexts]
    exact prefix_append _ _
  · exact ⟨t, (getElem?_set_ne (Ne.symm hk)).trans ht, rfl, prefix_refl _⟩

omit hs h in
theorem take_of_isPrefix {k : ℕ} (h : texts <+: texts') (hk : k ≤ texts.length) :
    texts'.take k = texts.take k := by
  obtain ⟨more, rfl⟩ := h
  exact take_append_of_le_length hk

/-- A new text of an interner. -/
theorem refines_add
    (hn : ns[i]? = some n) {own' : Tables} (hvalid : own'.Valid hasher roundTrips it.first)
    (htexts : own'.texts = own.texts ++ [text]) (hshared : own'.isShared = own.isShared)
    (hnew : text ∉ n.texts) :
    ({ s with tables := s.tables.set it.tables own' } : Session).Refines hasher roundTrips
      (ns.set i (n.intern text).1) := by
  have hgrows := Names.grows_set hn (Names.prefix_intern n text)
  have hlt := (List.getElem?_eq_some_iff.1 hn).1
  refine ⟨?_, ?_, ?_, fun j m hm => ?_, fun c => ?_⟩
  · rw [length_set, length_set, hs.tables]
  · rw [length_set, hs.interners]
  · rw [length_set, hs.nextNumber]
  · rw [h.tables]
    by_cases hj : j = i
    · subst hj
      rw [getElem?_set_self hlt] at hm
      obtain rfl := some.inj hm
      obtain ⟨base', hbase, hbaseShared, hpre⟩ := exists_table h.ownTable hshared htexts h.baseTable
      refine ⟨it, own', base', h.interner, h.tables, h.number,
        getElem?_set_self (List.getElem?_eq_some_iff.1 h.ownTable).1, hbase, ?_, hvalid,
        Names.nodup_intern h.nodup text, h.first_le.trans hpre.length_le, ?_,
        fun hlayer => hbaseShared.trans (h.layer hlayer), fun hcommon => h.common ?_⟩
      · rw [hshared, h.shared, Names.isShared_intern]
      · rw [Names.intern_of_notMem hnew, take_of_isPrefix hpre h.first_le, htexts, ← append_assoc,
          ← h.texts]
      · rwa [Names.isShared_intern] at hcommon
    · rw [getElem?_set_ne (Ne.symm hj)] at hm
      obtain ⟨it', own₁, base₁, h'⟩ := hs.shows j m hm
      obtain ⟨base', hbase, hbaseShared, hpre⟩ :=
        exists_table h.ownTable hshared htexts h'.baseTable
      refine ⟨it', own₁, base', h'.interner, h'.tables, h'.number,
        (getElem?_set_ne (Ne.symm hj)).trans h'.ownTable, hbase, h'.shared, h'.valid, h'.nodup,
        h'.first_le.trans hpre.length_le, ?_, fun hlayer => hbaseShared.trans (h'.layer hlayer),
        h'.common⟩
      rw [take_of_isPrefix hpre h'.first_le]
      exact h'.texts
  · refine (hs.recents c).imp_right ?_
    rintro ⟨k, m, hnumber, hm, hcached⟩
    obtain ⟨m', hm', hpre⟩ := hgrows k m hm
    exact ⟨k, m', hnumber, hm', cached_mono hcached hpre⟩

theorem internShared_spec (hn : ns[i]? = some n) (text : Bytes) : ∃ s',
    s.internShared roundTrips it (hasher.hashOf text) text = .ok (s', (n.intern text).2) ∧
      s'.Refines hasher roundTrips (ns.set i (n.intern text).1) ∧ s'.interners = s.interners := by
  have hself : s.table it.tables = .ok own := table_eq (h.tables ▸ h.ownTable)
  rw [internShared]
  rcases find_spec hs h text with ⟨atom, hbase, htext⟩ | ⟨hbase, ⟨atom, hown, htext⟩ | ⟨hown, hnew⟩⟩
  · rw [hbase, Names.intern_of_getElem? h.nodup htext, set_getElem? hn]
    exact ⟨s, rfl, hs, rfl⟩
  · rw [hbase, ok_bind]
    rw [hself, ok_bind, hown, Names.intern_of_getElem? h.nodup htext, set_getElem? hn]
    exact ⟨s, rfl, hs, rfl⟩
  · have hownNew : text ∉ own.texts := fun hmem => hnew (by
      rw [h.texts]
      exact mem_append_right _ hmem)
    obtain ⟨own', hadd, hvalid, htexts, hshared⟩ := h.valid.findOrAdd hownNew
    refine ⟨_, ?_, refines_add hs h hn hvalid htexts hshared hnew, rfl⟩
    rw [hbase, ok_bind]
    rw [hself, ok_bind, hown, ok_bind]
    rw [hadd, ok_bind, Names.intern_of_notMem hnew]
    rw [h.texts, length_append, length_take_of_le h.first_le]

/-! ## Caches -/

omit hs in
theorem shows_of_eq {s' : Session}
    (htables : s'.tables = s.tables) (hinterners : s'.interners = s.interners) :
    it.Shows hasher roundTrips s' i n own base :=
  ⟨hinterners ▸ h.interner, h.tables, h.number, htables ▸ h.ownTable, htables ▸ h.baseTable,
    h.shared, h.valid, h.nodup, h.first_le, h.texts, h.layer, h.common⟩

omit h in
/-- A cache that has atoms of an interner is put in place. -/
theorem refines_recents (hn : ns[i]? = some n) (hentries : Cached entries n.texts) :
    ({ s with recents := update s.recents cache ⟨i + 1, entries⟩ } : Session).Refines hasher
      roundTrips ns := by
  refine ⟨hs.tables, hs.interners, hs.nextNumber, fun j m hm => ?_, fun c => ?_⟩
  · obtain ⟨it', own', base', h'⟩ := hs.shows j m hm
    exact ⟨it', own', base', shows_of_eq h' rfl rfl⟩
  · dsimp only
    by_cases hc : c = cache
    · rw [hc, update_self]
      exact .inr ⟨i, n, rfl, hn, hentries⟩
    · rw [update_of_ne hc]
      exact hs.recents c

/-- Entries of another interner are not used. -/
theorem cached_recentEntries (hn : ns[i]? = some n) (cache : ℕ) :
    Cached (recentEntries (s.recents cache) it) n.texts := by
  rw [recentEntries]
  split
  next =>
    refine ⟨length_replicate, fun e he => .inl (eq_of_mem_replicate he)⟩
  next hsame =>
    have hsame := not_not.1 hsame
    rw [h.number] at hsame
    rcases hs.recents cache with hzero | ⟨j, m, hnumber, hm, hcached⟩
    · exact absurd (hsame.symm.trans hzero) (succ_ne_zero i)
    · obtain rfl := succ_injective (hnumber.symm.trans hsame)
      obtain rfl := some.inj (hn.symm.trans hm)
      exact hcached

omit hs h in
/-- What a cache answers is the atom of the text. -/
theorem intern_of_cached (hentries : Cached entries n.texts)
    (hnodup : n.texts.Nodup) (hshort : text.length ≤ maxPackedLen) {entry : RecentEntry}
    (hentry : entry ∈ entries) (hpacked : entry.packed = packShort text) :
    n.intern text = (n, entry.atom) := by
  rcases hentries.entry entry hentry with rfl | ⟨other, hother, heq, htext⟩
  · exact absurd hpacked (packShort_ne_empty hshort)
  · obtain rfl := packShort_inj hother hshort (heq.symm.trans hpacked)
    exact Names.intern_of_getElem? hnodup htext

omit hs h in
theorem cached_set {texts : List Bytes} {place atom : ℕ}
    (h : Cached entries texts) (hshort : text.length ≤ maxPackedLen)
    (hatom : texts[atom]? = some text) :
    Cached (entries.set place ⟨packShort text, atom⟩) texts where
  length := by rw [length_set, h.length]
  entry e he := by
    rcases mem_or_eq_of_mem_set he with he | rfl
    · exact h.entry e he
    · exact .inr ⟨text, hshort, rfl, hatom⟩

theorem intern_spec (hn : ns[i]? = some n) (cache : ℕ) (text : Bytes) : ∃ s',
    s.intern hasher roundTrips it cache text = .ok (s', (n.intern text).2) ∧
      s'.Refines hasher roundTrips (ns.set i (n.intern text).1) ∧ s'.interners = s.interners := by
  rw [intern]
  split
  next => exact internShared_spec hs h hn text
  next hshort =>
    have hshort := not_lt.1 hshort
    have hentries := cached_recentEntries hs h hn cache
    have hhash : hasher.packed (packShort text) = hasher.hashOf text := by
      rw [Hasher.hashOf, if_neg (not_lt.2 hshort)]
    have hs' : ({ s with recents := update s.recents cache ⟨it.number,
        recentEntries (s.recents cache) it⟩ } : Session).Refines hasher roundTrips ns := by
      rw [h.number]
      exact refines_recents hs hn hentries
    have h' : it.Shows hasher roundTrips { s with recents := update s.recents cache ⟨it.number,
        recentEntries (s.recents cache) it⟩ } i n own base := shows_of_eq h rfl rfl
    have hplace : (hasher.packed (packShort text)).toNat >>> (64 - recentBits) <
        (recentEntries (s.recents cache) it).length := by
      rw [hentries.length, shiftRight_eq_div_pow]
      exact Nat.div_lt_of_lt_mul (hasher.packed (packShort text)).toNat_lt
    dsimp only
    rw [getElem?_eq_getElem hplace]
    dsimp only
    split
    next hpacked =>
      rw [intern_of_cached hentries h.nodup hshort (getElem_mem hplace) hpacked, set_getElem? hn]
      exact ⟨_, rfl, hs', rfl⟩
    next =>
      obtain ⟨s₁, hshared, hrefines, hinterners⟩ := internShared_spec hs' h' hn text
      rw [hhash, hshared, ok_bind]
      have hset : (ns.set i (n.intern text).1)[i]? = some (n.intern text).1 :=
        getElem?_set_self (List.getElem?_eq_some_iff.1 hn).1
      refine ⟨_, rfl, ?_, hinterners⟩
      rw [h.number]
      exact refines_recents hrefines hset
        <| cached_set (cached_mono hentries (Names.prefix_intern n text))
        hshort (Names.getElem?_intern n text)

end

/-! ## New interners -/

section

variable (hs : s.Refines hasher roundTrips ns)
include hs

theorem refines_make {isShared : Bool} {base : Option ℕ} {first : ℕ}
    {texts : List Bytes} {b : Tables}
    (hbase : (s.tables ++ [({ isShared } : Tables)])[base.getD s.tables.length]? = some b)
    (hfirst : first ≤ b.texts.length) (htexts : texts = b.texts.take first)
    (hnodup : texts.Nodup) (hlayer : first ≠ 0 → b.isShared = true)
    (hcommon : isShared = true → first = 0) :
    (s.make isShared base first).1.Refines hasher roundTrips (ns ++ [⟨texts, isShared⟩]) := by
  refine ⟨?_, ?_, ?_, fun j m hm => ?_, fun c => ?_⟩
  · rw [make, length_append, length_append, hs.tables]
    rfl
  · rw [make, length_append, length_append, hs.interners]
    rfl
  · rw [make, length_append, hs.nextNumber]
    rfl
  · rcases lt_trichotomy j ns.length with hlt | rfl | hgt
    · rw [getElem?_append_left hlt] at hm
      obtain ⟨it', own', base', h'⟩ := hs.shows j m hm
      have happend {k : ℕ} {t : Tables} (ht : s.tables[k]? = some t) :
          (s.tables ++ [({ isShared } : Tables)])[k]? = some t :=
        (getElem?_append_left (List.getElem?_eq_some_iff.1 ht).1).trans ht
      exact ⟨it', own', base',
        (getElem?_append_left (List.getElem?_eq_some_iff.1 h'.interner).1).trans h'.interner,
        h'.tables, h'.number, happend h'.ownTable, happend h'.baseTable, h'.shared, h'.valid,
        h'.nodup,
        h'.first_le, h'.texts, h'.layer, h'.common⟩
    · rw [getElem?_concat_length] at hm
      obtain rfl := some.inj hm
      refine ⟨⟨s.tables.length, base.getD s.tables.length, first, s.nextNumber⟩, { isShared }, b,
        ?_, hs.tables,
        hs.nextNumber, ?_, hbase, rfl, Tables.valid_empty isShared, hnodup, hfirst, ?_, hlayer,
        hcommon⟩
      · rw [make, ← hs.interners]
        exact getElem?_concat_length
      · rw [make, ← hs.tables]
        exact getElem?_concat_length
      · rw [append_nil]
        exact htexts
    · rw [getElem?_eq_none (by rw [length_append, length_singleton]; exact hgt)] at hm
      cases hm
  · refine (hs.recents c).imp_right ?_
    rintro ⟨k, m, hnumber, hm, hcached⟩
    exact ⟨k, m, hnumber, (getElem?_append_left (List.getElem?_eq_some_iff.1 hm).1).trans hm,
      hcached⟩

theorem withKnownAtoms_spec (hknown : known.Nodup) (isShared : Bool)
    (cache : ℕ) : ∃ s', s.withKnownAtoms hasher roundTrips known isShared cache = .ok s' ∧
      s'.Refines hasher roundTrips (ns ++ [⟨known, isShared⟩]) ∧ s.interners <+: s'.interners := by
  have hmake : (s.make isShared none 0).1.Refines hasher roundTrips (ns ++ [⟨[], isShared⟩]) :=
    refines_make hs getElem?_concat_length (zero_le _) rfl nodup_nil
      (fun hne => absurd rfl hne) fun _ => rfl
  have hinterner :
      (s.make isShared none 0).1.interners[ns.length]? = some (s.make isShared none 0).2 := by
    rw [← hs.interners]
    exact getElem?_concat_length
  obtain ⟨s', hrun, hrefines, -, hpre⟩ := exists_foldlM
    (f := addKnown hasher roundTrips (s.make isShared none 0).2 cache)
    (P := fun done (s' : Session) => s'.Refines hasher roundTrips
      (ns ++ [⟨done.map Prod.fst, isShared⟩]) ∧
      s'.interners[ns.length]? = some (s.make isShared none 0).2 ∧ s.interners <+: s'.interners)
    known.zipIdx ⟨hmake, hinterner, prefix_append _ _⟩ fun done entry rest hsplit s' hs' => by
      have hn : (ns ++ [⟨done.map Prod.fst, isShared⟩])[ns.length]? =
          some (⟨done.map Prod.fst, isShared⟩ : Names) := getElem?_concat_length
      obtain ⟨it, own, base, h⟩ := hs'.1.shows ns.length _ hn
      obtain rfl := some.inj (h.interner.symm.trans hs'.2.1)
      have hplace : (done.map Prod.fst).length = entry.2 ∧ entry.1 ∉ done.map Prod.fst := by
        have hget : known.zipIdx[done.length]? = some entry := by
          rw [hsplit, getElem?_append_right le_rfl, Nat.sub_self]
          rfl
        rw [getElem?_zipIdx, map_eq_some_iff] at hget
        obtain ⟨text, -, rfl⟩ := hget
        have hfirst : known = done.map Prod.fst ++ text :: rest.map Prod.fst := by
          have hmap := congrArg (map Prod.fst) hsplit
          rwa [zipIdx_map_fst, map_append, map_cons] at hmap
        rw [hfirst, nodup_append] at hknown
        refine ⟨(length_map ..).trans (zero_add _).symm, fun hmem => ?_⟩
        exact hknown.2.2 text hmem text mem_cons_self rfl
      obtain ⟨s'', hintern, hrefines, hinterners⟩ := intern_spec hs'.1 h hn cache entry.1
      rw [Names.intern_of_notMem hplace.2] at hintern hrefines
      refine ⟨s'', ?_, ?_, hinterners ▸ hs'.2⟩
      · rw [addKnown, hintern, ok_bind]
        exact if_pos hplace.1
      · rw [set_append_right _ _ le_rfl, Nat.sub_self, set_cons_zero] at hrefines
        rw [map_append]
        exact hrefines
  rw [zipIdx_map_fst] at hrefines
  exact ⟨s', hrun, hrefines, hpre⟩

/-! ## Calls -/

omit hs in
theorem interner_eq (h : it.Shows hasher roundTrips s i n own base) : s.interner i = .ok it := by
  rw [interner, h.interner]

/-- Every call answers as the lists do, and a layer starts after the texts of its base. -/
theorem call_refines (hknown : known.Nodup) {c : Call}
    {ns' : List Names} {answer : Answer} (h : Names.call known ns c = some (ns', answer)) : ∃ s',
    s.call hasher roundTrips known c = .ok (s', answer) ∧ s'.Refines hasher roundTrips ns' ∧
      s.interners <+: s'.interners ∧ ∀ (b : ℕ) (n : Names), c = .layerOver b → ns[b]? = some n →
        ∃ it, s'.interners[ns.length]? = some it ∧ it.first = n.texts.length := by
  cases c with
  | newIn cache =>
    cases h
    obtain ⟨s', hcall, hrefines, hpre⟩ := withKnownAtoms_spec hs hknown false cache
    exact ⟨s', by rw [call, hcall]; rfl, hrefines, hpre, fun b n hc => by cases hc⟩
  | inCommon cache =>
    cases h
    obtain ⟨s', hcall, hrefines, hpre⟩ := withKnownAtoms_spec hs hknown true cache
    exact ⟨s', by rw [call, hcall]; rfl, hrefines, hpre, fun b n hc => by cases hc⟩
  | layerOver b =>
    obtain ⟨n, hn, h⟩ := bind_eq_some_iff.1 h
    obtain ⟨it, own, base, hshows⟩ := hs.shows b n hn
    split at h
    next hshared =>
      cases h
      have htexts : n.texts = own.texts := by
        rw [hshows.texts, hshows.common hshared, take_zero, nil_append]
      have hbase : (s.tables ++ [({ isShared := false } : Tables)])[it.tables]? = some own := by
        rw [hshows.tables, getElem?_append_left (List.getElem?_eq_some_iff.1 hshows.ownTable).1]
        exact hshows.ownTable
      have hmade : (s.make false (some it.tables) own.texts.length).1.Refines hasher roundTrips
          (ns ++ [⟨n.texts, false⟩]) :=
        refines_make hs hbase le_rfl (by rw [take_length, htexts]) hshows.nodup
          (fun _ => hshows.shared.trans hshared) fun hfalse => by cases hfalse
      refine ⟨_, ?_, hmade, prefix_append _ _, fun b' n' hc hn' => ?_⟩
      · rw [call, interner_eq hshows, ok_bind, layerOver, hshows.tables, table_eq hshows.ownTable,
          ok_bind, if_pos (hshows.shared.trans hshared)]
        rfl
      · obtain rfl := Call.layerOver.inj hc
        obtain rfl := some.inj (hn.symm.trans hn')
        refine ⟨(s.make false (some it.tables) own.texts.length).2, ?_, congrArg length htexts.symm⟩
        rw [← hs.interners]
        exact getElem?_concat_length
    next => cases h
  | intern j cache text =>
    obtain ⟨n, hn, h⟩ := bind_eq_some_iff.1 h
    cases h
    obtain ⟨it, own, base, hshows⟩ := hs.shows j n hn
    obtain ⟨s', hintern, hrefines, hinterners⟩ := intern_spec hs hshows hn cache text
    exact ⟨s', by rw [call, interner_eq hshows, ok_bind, hintern]; rfl, hrefines,
      hinterners ▸ prefix_refl _, fun b n hc => by cases hc⟩
  | lookup j text =>
    obtain ⟨n, hn, h⟩ := bind_eq_some_iff.1 h
    cases h
    obtain ⟨it, own, base, hshows⟩ := hs.shows j n hn
    exact ⟨s, by rw [call, interner_eq hshows, ok_bind, lookup_spec hs hshows]; rfl, hs,
      prefix_refl _, fun b n hc => by cases hc⟩

theorem run_refines (hknown : known.Nodup) {calls : List Call}
    {ns' : List Names} {answers : List Answer}
    (h : Names.run known ns calls = some (ns', answers)) : ∃ s',
    s.run hasher roundTrips known calls = .ok (s', answers) ∧ s'.Refines hasher roundTrips ns' ∧
      s.interners <+: s'.interners ∧ ∀ k b : ℕ, calls[k]? = some (.layerOver b) → ∃ before n it,
        Names.run known ns (calls.take k) = some (before, answers.take k) ∧ before[b]? = some n ∧
        s'.interners[before.length]? = some it ∧ it.first = n.texts.length := by
  induction calls generalizing s ns answers with
  | nil =>
    cases h
    exact ⟨s, rfl, hs, prefix_refl _, fun k b hc => by cases hc⟩
  | cons c calls ih =>
    obtain ⟨⟨next, answer⟩, hcall, h⟩ := bind_eq_some_iff.1 h
    obtain ⟨⟨last, rest⟩, hrest, h⟩ := map_eq_some_iff.1 h
    cases h
    obtain ⟨s₁, hs₁, hrefines, hpre, hover⟩ := call_refines hs hknown hcall
    obtain ⟨s', hs', hrefines', hpre', hlater⟩ := ih hrefines hrest
    refine ⟨s', by rw [run, hs₁, ok_bind]; dsimp only; rw [hs']; rfl, hrefines', hpre.trans hpre',
      fun k b hc => ?_⟩
    cases k with
    | zero =>
      obtain rfl := some.inj hc
      obtain ⟨n, hn, -⟩ := bind_eq_some_iff.1 hcall
      obtain ⟨it, hit, hfirst⟩ := hover b n rfl hn
      obtain ⟨more, hmore⟩ := hpre'
      refine ⟨ns, n, it, rfl, hn, ?_, hfirst⟩
      rw [← hmore, getElem?_append_left (List.getElem?_eq_some_iff.1 hit).1]
      exact hit
    | succ k =>
      obtain ⟨before, n, it, hbefore, hn, hit, hfirst⟩ := hlater k b hc
      refine ⟨before, n, it, ?_, hn, hit, hfirst⟩
      rw [take_succ_cons, Names.run, hcall]
      change (Names.run known next (calls.take k)).map _ = _
      rw [hbefore]
      rfl

end

end Session

/-! ## Names -/

/-- What the calls of a run and their answers say at the end `s` of it. -/
structure Faithful (hasher : Hasher) (roundTrips : Bytes → Bool) (known : List Bytes)
    (calls : List Call) (answers : List Answer) (s : Session) : Prop where
  /-- An atom has its text and the class of it, and is found by it. -/
  atom : ∀ (k i c : ℕ) (text : Bytes) (atom : ℕ), calls[k]? = some (.intern i c text) →
    answers[k]? = some (.atom atom) → ∃ it, s.interners[i]? = some it ∧ s.bytes it atom = .ok text ∧
      s.classAt it atom = .ok (classOf roundTrips text) ∧ s.lookup hasher it text = .ok (some atom)
  /-- The atoms of an interner are the same just when their texts are. -/
  same : ∀ (k k' i c c' : ℕ) (text text' : Bytes) (atom atom' : ℕ),
    calls[k]? = some (.intern i c text) →
    answers[k]? = some (.atom atom) → calls[k']? = some (.intern i c' text') →
    answers[k']? = some (.atom atom') → (atom = atom' ↔ text = text')
  /-- A lookup finds the atom of a text that the interner has got by then. -/
  found : ∀ (k i : ℕ) (text : Bytes) (found : Option ℕ), calls[k]? = some (.lookup i text) →
    answers[k]? = some (.found found) → ∃ ns n,
      Names.run known [] (calls.take k) = some (ns, answers.take k) ∧
      ns[i]? = some n ∧ (∀ atom, found = some atom ↔ n.texts[atom]? = some text) ∧
      (found = none ↔ text ∉ n.texts)
  /-- What a base has when a layer is made has the same atoms in the layer, then and later. -/
  layer : ∀ k b : ℕ, calls[k]? = some (.layerOver b) → ∃ ns n,
    Names.run known [] (calls.take k) = some (ns, answers.take k) ∧ ns[b]? = some n ∧
    ∃ it base, s.interners[ns.length]? = some it ∧ s.interners[b]? = some base ∧
      it.first = n.texts.length ∧ ∀ (atom : ℕ) (text : Bytes), n.texts[atom]? = some text →
        s.bytes base atom = .ok text ∧ s.bytes it atom = .ok text ∧
        s.lookup hasher it text = .ok (some atom) ∧ s.lookup hasher base text = .ok (some atom)
  /-- What is numbered after the base's texts is the layer's own. -/
  own : ∀ (k i c : ℕ) (text : Bytes) (atom : ℕ) (it : Interner),
    calls[k]? = some (.intern i c text) →
    answers[k]? = some (.atom atom) → s.interners[i]? = some it → it.first ≤ atom →
    ∃ t, s.tables[it.tables]? = some t ∧ t.texts[atom - it.first]? = some text

section Run

variable {calls : List Call} {answers : List Answer} {ns : List Names} {k i c atom : ℕ}
  {text : Bytes}

/-- The text of an atom that was returned is in its place at the end of the run. -/
theorem exists_text (hrun : Names.run known [] calls = some (ns, answers))
    (hcall : calls[k]? = some (.intern i c text)) (hanswer : answers[k]? = some (.atom atom)) :
    ∃ n, ns[i]? = some n ∧ n.texts[atom]? = some text := by
  obtain ⟨before, after, answer, -, hafter, hanswer', hgrows⟩ := Names.run_at hrun hcall
  obtain ⟨n, hn, hafter⟩ := bind_eq_some_iff.1 hafter
  cases hafter
  have heq := some.inj (hanswer'.symm.trans hanswer)
  obtain rfl := Answer.atom.inj heq
  exact hgrows.getElem? (getElem?_set_self (List.getElem?_eq_some_iff.1 hn).1)
    (Names.getElem?_intern n text)

/-- A run of calls for interners that were made goes through, and its answers are faithful. -/
theorem faithful (hknown : known.Nodup) (hrun : Names.run known [] calls = some (ns, answers)) :
    ∃ s, Session.run hasher roundTrips known {} calls = .ok (s, answers) ∧
      Faithful hasher roundTrips known calls answers s := by
  have hempty : Session.Refines hasher roundTrips {} [] := refines_empty
  obtain ⟨s, hs, hrefines, -, hover⟩ := run_refines hempty hknown hrun
  refine ⟨s, hs, ?_, ?_, ?_, ?_, ?_⟩
  · intro k i c text atom hcall hanswer
    obtain ⟨n, hn, htext⟩ := exists_text hrun hcall hanswer
    obtain ⟨it, own, base, h⟩ := hrefines.shows i n hn
    refine ⟨it, h.interner, bytes_spec hrefines h htext, classAt_spec hrefines h htext, ?_⟩
    rw [lookup_spec hrefines h, (Names.lookup_eq_some h.nodup).2 htext]
  · intro k k' i c c' text text' atom atom' hcall hanswer hcall' hanswer'
    obtain ⟨n, hn, htext⟩ := exists_text hrun hcall hanswer
    obtain ⟨n', hn', htext'⟩ := exists_text hrun hcall' hanswer'
    obtain rfl := some.inj (hn.symm.trans hn')
    obtain ⟨it, own, base, h⟩ := hrefines.shows i n hn
    constructor
    · rintro rfl
      exact some.inj (htext.symm.trans htext')
    · rintro rfl
      rw [← Names.idxOf_of_getElem? h.nodup htext, ← Names.idxOf_of_getElem? h.nodup htext']
  · intro k i text found hcall hanswer
    obtain ⟨before, after, answer, hbefore, hafter, hanswer', -⟩ := Names.run_at hrun hcall
    obtain ⟨n, hn, hafter⟩ := bind_eq_some_iff.1 hafter
    cases hafter
    obtain rfl := Answer.found.inj (some.inj (hanswer'.symm.trans hanswer))
    obtain ⟨s', -, hrefines', -⟩ := run_refines hempty hknown hbefore
    obtain ⟨it, own, base, h⟩ := hrefines'.shows i n hn
    refine ⟨before, n, hbefore, hn, fun atom => Names.lookup_eq_some h.nodup, Names.lookup_eq_none⟩
  · intro k b hcall
    obtain ⟨before, n, it, hbefore, hn, hit, hfirst⟩ := hover k b hcall
    obtain ⟨before', after, answer, hbefore', hafter, -, hgrows⟩ := Names.run_at hrun hcall
    obtain ⟨rfl, -⟩ := Prod.mk.inj (some.inj (hbefore.symm.trans hbefore'))
    obtain ⟨n', hn', hafter⟩ := bind_eq_some_iff.1 hafter
    obtain rfl := some.inj (hn.symm.trans hn')
    split at hafter
    next =>
      cases hafter
      have hbase := (Names.grows_append before [⟨n.texts, false⟩]).trans hgrows
      have hlayer : (before ++ [⟨n.texts, false⟩])[before.length]? = some ⟨n.texts, false⟩ :=
        getElem?_concat_length
      obtain ⟨m, hm, -⟩ := hgrows _ _ hlayer
      obtain ⟨it', own, base, h⟩ := hrefines.shows _ m hm
      obtain rfl := some.inj (hit.symm.trans h.interner)
      obtain ⟨mb, hmb, -⟩ := hbase b n hn
      obtain ⟨itb, ownb, baseb, hb⟩ := hrefines.shows b mb hmb
      refine ⟨before, n, hbefore, hn, it, itb, hit, hb.interner, hfirst, fun atom text htext => ?_⟩
      obtain ⟨m', hm', htext'⟩ := hgrows.getElem? hlayer htext
      obtain rfl := some.inj (hm.symm.trans hm')
      obtain ⟨mb', hmb', htextb⟩ := hbase.getElem? hn htext
      obtain rfl := some.inj (hmb.symm.trans hmb')
      refine ⟨bytes_spec hrefines hb htextb, bytes_spec hrefines h htext', ?_, ?_⟩
      · rw [lookup_spec hrefines h, (Names.lookup_eq_some h.nodup).2 htext']
      · rw [lookup_spec hrefines hb, (Names.lookup_eq_some hb.nodup).2 htextb]
    next => cases hafter
  · intro k i c text atom it hcall hanswer hit hle
    obtain ⟨n, hn, htext⟩ := exists_text hrun hcall hanswer
    obtain ⟨it', own, base, h⟩ := hrefines.shows i n hn
    obtain rfl := some.inj (hit.symm.trans h.interner)
    exact ⟨own, h.tables ▸ h.ownTable, (getElem?_own h hle).symm.trans htext⟩

end Run

/-- A base that goes on after a layer was made, with a hash that is always the same. -/
theorem faithful_layer : ∃ s,
    Session.run ⟨fun _ => 0, fun _ => 0⟩ (fun _ => false) [text "", text "default"] {}
      [.inCommon 0, .intern 0 0 (text "x"), .layerOver 0, .intern 0 0 (text "y"),
        .intern 1 0 (text "z"), .intern 1 0 (text "x"), .lookup 1 (text "y")] =
      .ok (s, [.made, .atom 2, .made, .atom 3, .atom 3, .atom 2, .found none]) ∧
    Faithful ⟨fun _ => 0, fun _ => 0⟩ (fun _ => false) [text "", text "default"]
      [.inCommon 0, .intern 0 0 (text "x"), .layerOver 0, .intern 0 0 (text "y"),
        .intern 1 0 (text "z"), .intern 1 0 (text "x"), .lookup 1 (text "y")]
      [.made, .atom 2, .made, .atom 3, .atom 3, .atom 2, .found none] s :=
  have hrun : Names.run [text "", text "default"] []
      [.inCommon 0, .intern 0 0 (text "x"), .layerOver 0, .intern 0 0 (text "y"),
        .intern 1 0 (text "z"), .intern 1 0 (text "x"), .lookup 1 (text "y")] =
      some ([⟨[text "", text "default", text "x", text "y"], true⟩,
        ⟨[text "", text "default", text "x", text "z"], false⟩],
        [.made, .atom 2, .made, .atom 3, .atom 3, .atom 2, .found none]) := by
    rfl
  faithful (by decide) hrun

end Soup.Sema

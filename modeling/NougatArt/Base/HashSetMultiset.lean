import NougatArt.Base.HashSet

/-!
# The hash set is a multiset

The operations of the hash set in terms of the multiset of its elements.
-/

namespace NougatArt.HashSet

open List Option Function Nat Multiset Finset Bool

open Probing

variable {α κ : Type*} {hashfn : α → ℕ} {n fuel index : ℕ} {data : ℕ → Option α}

section Probes

theorem nextIndex_mod (hn : 0 < n) (x : ℕ) : nextIndex n (x % n) = (x + 1) % n := by
  have hlt := mod_lt x hn
  rw [nextIndex, show (x + 1) % n = (x % n + 1) % n from (mod_add_mod x n 1).symm]
  split
  · rw [show x % n + 1 = n by omega, mod_self]
  · rw [mod_eq_of_lt (show x % n + 1 < n by omega)]

theorem indexForHash_eq (hn : 0 < n) (h : ℕ) : indexForHash n h = h % n := if_neg (by omega)

/-- A probe ends at the first bucket that stops it. -/
theorem probe_spec (hn : 0 < n) (data : ℕ → Option α) (stops : Option α → Bool) :
    ∀ (h : ℕ) {t : ℕ}, t < fuel → stops (data ((h + t) % n)) →
      ∃ d < fuel, probe n data stops fuel (h % n) = some ((h + d) % n) ∧
        stops (data ((h + d) % n)) ∧ ∀ e < d, stops (data ((h + e) % n)) = false := by
  induction fuel with
  | zero => exact fun _ _ ht => absurd ht (not_lt_zero _)
  | succ fuel ih =>
    intro h t ht hstop
    rw [probe, nextIndex_mod hn]
    by_cases hfirst : stops (data (h % n)) = true
    · exact ⟨0, zero_lt_succ fuel, if_pos hfirst, hfirst, fun e he => absurd he (by omega)⟩
    have hpos : 0 < t := by
      by_contra hzero
      rw [Nat.eq_zero_of_not_pos hzero] at hstop
      exact hfirst hstop
    obtain ⟨d, hd, hprobe, hat, hbefore⟩ := ih (h + 1) (t := t - 1) (by omega)
      (by rwa [show h + 1 + (t - 1) = h + t by omega])
    rw [show h + 1 + d = h + (d + 1) by omega] at hprobe hat
    refine ⟨d + 1, by omega, by rw [if_neg hfirst, hprobe], hat, fun e he => ?_⟩
    cases e with
    | zero => exact eq_false_iff.mpr hfirst
    | succ e =>
      have := hbefore e (by omega)
      rwa [show h + 1 + e = h + (e + 1) by omega] at this

theorem store_spec (hplaced : Placed n data hashfn) (hempty : ∃ i < n, data i = none) (a : α) :
    ∃ data', store hashfn n data a = some data' ∧ Placed n data' hashfn ∧
      contents (range n) data' = contents (range n) data + {a} := by
  obtain ⟨i, hi, hnone⟩ := hempty
  have hn : 0 < n := by omega
  obtain ⟨t, ht, rfl⟩ := exists_offset hi (hashfn a)
  obtain ⟨d, hd, hprobe, hat, hbefore⟩ :=
    probe_spec hn _ _ (hashfn a) ht (isNone_iff_eq_none.mpr hnone)
  refine ⟨update data ((hashfn a + d) % n) (some a), ?_, ?_, ?_⟩
  · rw [store, firstAvailableSlot, indexForHash_eq hn, hprobe, map_some]
  · refine hplaced.place hd fun e he hnone => ?_
    have := hbefore e he
    rw [hnone] at this
    cases this
  · have hmem := Finset.mem_range.mpr (Nat.mod_lt (hashfn a + d) hn)
    rw [contents_update hmem, add_comm, contents_erase hmem, Option.isNone_iff_eq_none.mp hat]
    exact congrArg (· + _) (zero_add _).symm

end Probes

section Resizing

variable (set : HashSet α)

def elements : Multiset α := contents (range set.numBuckets) set.data

theorem storeAll_spec (hashfn : α → ℕ) (old : ℕ → Option α) (l : List ℕ) :
    ∀ data, Placed n data hashfn →
    Multiset.card (contents (Finset.range n) data + (l.map fun i => (old i).elim 0 ({·})).sum) ≤ n →
    ∃ data', l.foldlM (fun data index => storeSlot hashfn n data (old index)) data = some data' ∧
      Placed n data' hashfn ∧ contents (range n) data' =
        contents (range n) data + (l.map fun i => (old i).elim 0 ({·})).sum := by
  induction l with
  | nil => exact fun data hplaced _ => ⟨data, rfl, hplaced, (add_zero _).symm⟩
  | cons i l ih =>
    intro data hplaced hcard
    rw [List.map_cons, List.sum_cons, ← add_assoc] at hcard ⊢
    rw [foldlM_cons]
    cases hold : old i with
    | none =>
      rw [hold, elim_none, add_zero] at hcard
      rw [elim_none, add_zero]
      exact ih _ hplaced hcard
    | some a =>
      rw [hold, elim_some] at hcard
      obtain ⟨data', hstore, hplaced', hcont⟩ := store_spec hplaced
        (exists_empty (by
          rw [Multiset.card_add, Multiset.card_add, Multiset.card_singleton] at hcard
          omega)) a
      obtain ⟨last, hlast, hspec⟩ := ih _ hplaced' (by rwa [hcont])
      refine ⟨last, ?_, ?_⟩
      · change bind (store hashfn n data a) _ = _
        rw [hstore]
        exact hlast
      · rwa [hcont] at hspec

structure Sound (hashfn : α → ℕ) (set : HashSet α) : Prop where
  placed : Placed set.numBuckets set.data hashfn
  count : card set.elements = set.numElements
  limit : set.elementsUntilExpand = set.numBuckets * 7 / 10

theorem resize_spec (hashfn : α → ℕ) {set : HashSet α}
    (hcount : card set.elements = set.numElements) (newSize : ℕ)
    (hsize : set.numElements ≤ max newSize kMinBuckets) :
    ∃ set', set.resize hashfn newSize = some set' ∧ set'.Sound hashfn ∧
      set'.elements = set.elements ∧ set'.numElements = set.numElements ∧
      set'.numBuckets = max newSize kMinBuckets := by
  have hbuckets : (if newSize < kMinBuckets then kMinBuckets else newSize) =
      max newSize kMinBuckets := by
    split <;> omega
  have hsum : ((List.range set.numBuckets).map fun i => (set.data i).elim 0 ({·})).sum =
      set.elements := rfl
  obtain ⟨data', hfold, hplaced, hcont⟩ := storeAll_spec (n := max newSize kMinBuckets)
    hashfn set.data (range set.numBuckets) (fun _ => none) placed_empty
    (by rw [hsum]; simp [contents, hcount]; omega)
  rw [hsum, show contents _ (fun _ => (none : Option α)) = 0 by simp [contents], zero_add] at hcont
  refine ⟨⟨set.numElements, max newSize kMinBuckets, max newSize kMinBuckets * 7 / 10, data'⟩, ?_,
    ⟨hplaced, (congrArg _ hcont).trans hcount, rfl⟩, hcont, rfl, rfl⟩
  rw [resize, hbuckets]
  exact congrArg (Option.map _) hfold

end Resizing

section Operations

variable {set : HashSet α}

/-- There is an empty bucket, unless there are no buckets at all. -/
def HasRoom (set : HashSet α) : Prop := set.numElements < set.numBuckets ∨ set.numBuckets = 0

section

variable (hsound : set.Sound hashfn)

include hsound

/-- There is room for one more element in the table that the element is stored in. -/
theorem Sound.expandIfFull : ∃ large, set.expandIfFull hashfn = some large ∧ large.Sound hashfn ∧
      large.elements = set.elements ∧ large.numElements + 1 < large.numBuckets := by
  rw [HashSet.expandIfFull]
  split
  next =>
    obtain ⟨large, hlarge, hsound', hsame, hnum, hbuckets⟩ := resize_spec hashfn
      hsound.count (set.numElements * 5 / 2) (by rw [kMinBuckets]; omega)
    exact ⟨large, hlarge, hsound', hsame, by rw [hbuckets, hnum, kMinBuckets]; omega⟩
  next hfull =>
    have := hsound.limit
    exact ⟨set, rfl, hsound, rfl, by omega⟩

theorem Sound.insert (a : α) :
    ∃ set', set.insert hashfn a = some set' ∧ set'.Sound hashfn ∧ set'.HasRoom ∧
      set'.elements = set.elements + {a} := by
  obtain ⟨large, hlarge, hlargeSound, hsame, hless⟩ := hsound.expandIfFull
  obtain ⟨data', hstore, hplaced, hcont⟩ := store_spec hlargeSound.placed
    (exists_empty (by rw [← elements, hlargeSound.count]; omega)) a
  refine ⟨{ large with numElements := large.numElements + 1, data := data' }, ?_,
    ⟨hplaced, ?_, hlargeSound.limit⟩, .inl hless, hcont.trans (congrArg (· + _) hsame)⟩
  · rw [HashSet.insert, hlarge, bind_eq_bind, bind_some, hstore]
    rfl
  · rw [elements, hcont, Multiset.card_add, Multiset.card_singleton, ← hlargeSound.count, elements]

theorem Sound.exists_empty (hroom : set.HasRoom)
    (hn : 0 < set.numBuckets) : ∃ i < set.numBuckets, set.data i = none :=
  Probing.exists_empty (by rw [← elements, hsound.count]; exact hroom.resolve_right hn.ne')

theorem Sound.find (hroom : set.HasRoom) {hashKey : κ → ℕ}
    {pred : α → κ → Bool} (hpred : ∀ a key, pred a key → hashfn a = hashKey key) (key : κ) :
    ∃ index, set.find hashKey pred key = some index ∧
      (index ≠ set.numBuckets ↔ ∃ a ∈ set.elements, pred a key) ∧
      (index ≠ set.numBuckets → index < set.numBuckets ∧
        ∃ a, set.data index = some a ∧ pred a key) := by
  rcases Nat.eq_zero_or_pos set.numBuckets with hzero | hn
  · refine ⟨0, if_pos hzero, ?_, fun h => absurd hzero.symm h⟩
    rw [elements, hzero]
    simp [contents]
  obtain ⟨i, hi, hnone⟩ := hsound.exists_empty hroom hn
  obtain ⟨t, ht, rfl⟩ := exists_offset hi (hashKey key)
  obtain ⟨d, hd, hprobe, hat, hbefore⟩ := probe_spec hn set.data (·.all (pred · key))
    (hashKey key) ht (by rw [hnone, all_none])
  have hlt := mod_lt (hashKey key + d) hn
  rw [HashSet.find, if_neg hn.ne', indexForHash_eq hn, hprobe, map_some]
  cases hdata : set.data ((hashKey key + d) % set.numBuckets) with
  | some a =>
    rw [hdata, all_some] at hat
    refine ⟨_, rfl, ⟨fun _ => ⟨a, mem_contents.mpr ⟨_, Finset.mem_range.mpr hlt, hdata⟩, hat⟩,
      fun _ => ?_⟩, fun _ => ⟨hlt, a, hdata, hat⟩⟩
    exact hlt.ne
  | none =>
    refine ⟨set.numBuckets, rfl, iff_of_false (not_not.mpr rfl) ?_, fun h => absurd rfl h⟩
    rintro ⟨a, hmem, hkey⟩
    obtain ⟨i, hi, hdata'⟩ := mem_contents.mp hmem
    obtain ⟨e, he, rfl, hpath⟩ := hsound.placed i (Finset.mem_range.mp hi) a hdata'
    rw [hpred a key hkey] at hpath hdata'
    -- The probe would have stopped at the element.
    rcases lt_or_ge e d with hlt' | hge
    · have := hbefore e hlt'
      rw [hdata', all_some, hkey] at this
      cases this
    · rcases eq_or_lt_of_le hge with rfl | hlt'
      · rw [hdata] at hdata'
        cases hdata'
      · exact hpath d hlt' hdata

end

end Operations

section Erasing

variable {e k : ℕ}

theorem unwrap_eq (he : e < n) (hk : k < n) :
    (if (e + k) % n < e then (e + k) % n + n else (e + k) % n) = e + k := by
  rcases lt_or_ge (e + k) n with hlt | hge
  · rw [mod_eq_of_lt hlt, if_neg (by omega)]
  · rw [mod_eq_sub_mod hge, mod_eq_of_lt (by omega), if_pos (by omega)]
    omega

variable {c : ℕ}

theorem fillsGap_iff (he : e < n) (hk : k < n) (hc : c < n) :
    fillsGap n e ((e + k) % n) ((e + c) % n) ↔ c = 0 ∨ k < c := by
  rw [fillsGap, unwrap_eq he hk, unwrap_eq he hc, or_eq_true, decide_eq_true_eq, decide_eq_true_eq]
  omega

/-- The loop of `Erase` for the element at `start`, with the hole `p` and the iterator `q` buckets
behind it and an empty bucket `t` buckets behind it. -/
structure Closing (hashfn : α → ℕ) (n start : ℕ) (data : ℕ → Option α) (p q t : ℕ)
    (elements before : Multiset α) : Prop where
  start_lt : start < n
  le : p ≤ q
  lt : q < t
  t_lt : t < n
  gap : Gap n data hashfn ((start + p) % n) (q - p)
  empty : data ((start + t) % n) = none
  start_full : data start ≠ none
  kept : contents ((Finset.range n).erase ((start + p) % n)) data = elements
  visited : contents ((Finset.range start).erase ((start + p) % n)) data ≤ before

variable {start p q t : ℕ} {elements before : Multiset α}

namespace Closing

variable (h : Closing hashfn n start data p q t elements before)

include h

theorem next_eq : ((start + p) % n + (q - p + 1)) % n = (start + (q + 1)) % n := by
  have hle := h.le
  rw [mod_add_mod, show start + p + (q - p + 1) = start + (q + 1) by omega]

section

variable {a : α} (hnext : data ((start + (q + 1)) % n) = some a)

include hnext

theorem next_ne : q + 1 < t := by
  have hlt := h.lt
  refine lt_of_le_of_ne hlt fun heq => ?_
  rw [heq, h.empty] at hnext
  cases hnext

theorem stay (hpos : 0 < c)
    (hle : c ≤ q - p + 1) (hhome : hashfn a % n = ((start + p) % n + c) % n) :
    Closing hashfn n start data p (q + 1) t elements before := by
  have hgap := h.gap.stay (by rw [h.next_eq]; exact hnext) hpos hle hhome
  rw [← Nat.sub_add_comm h.le] at hgap
  exact { h with le := le_succ_of_le h.le, lt := h.next_ne hnext, gap := hgap }

theorem move (hc : c < n)
    (hhome : hashfn a % n = ((start + p) % n + c) % n) (hbefore : c = 0 ∨ q - p + 1 < c) :
    Closing hashfn n start (update data ((start + p) % n) (some a)) (q + 1) (q + 1) t
      elements before := by
  have hlt := h.next_ne hnext
  have ht := h.t_lt
  have hle := h.le
  have hn : 0 < n := by omega
  have hfull : data ((start + p) % n) ≠ none := by
    have := h.gap.full 0 (zero_le _)
    rwa [add_zero, mod_mod] at this
  have hne : (start + (q + 1)) % n ≠ (start + p) % n := fun heq => by
    have := offset_unique (by omega) (by omega) heq
    omega
  have hgap := h.gap.move (by rw [h.next_eq]; exact hnext) (by omega) hc hhome hbefore
  rw [h.next_eq] at hgap
  -- Moving the element between two buckets changes nothing for a set of buckets that has both.
  have hmove : ∀ buckets : Finset ℕ, (start + p) % n ∈ buckets → (start + (q + 1)) % n ∈ buckets →
      contents (buckets.erase ((start + (q + 1)) % n)) (update data ((start + p) % n) (some a)) =
      contents (buckets.erase ((start + p) % n)) data := by
    intro buckets hhole hmem
    rw [contents_update (mem_erase.mpr ⟨hne.symm, hhole⟩),
      contents_erase (mem_erase.mpr ⟨hne, hmem⟩), hnext, erase_right_comm]
  refine ⟨h.start_lt, Nat.le_refl _, hlt, ht, by rw [Nat.sub_self]; exact hgap, ?_, ?_, ?_, ?_⟩
  · rw [update_of_ne, h.empty]
    exact fun heq => hfull (heq ▸ h.empty)
  · rw [update_apply]
    split
    · exact some_ne_none a
    · exact h.start_full
  · rw [hmove _ (Finset.mem_range.mpr (Nat.mod_lt _ hn)) (Finset.mem_range.mpr (Nat.mod_lt _ hn))]
    exact h.kept
  · by_cases hhole : (start + p) % n < start
    · -- The hole is behind the end of the table, and so is the element.
      have hwrap : (start + (q + 1)) % n < start := by
        have hstart := h.start_lt
        rcases lt_or_ge (start + p) n with hin | hout
        · rw [mod_eq_of_lt hin] at hhole
          omega
        · rw [mod_eq_sub_mod (by omega), mod_eq_of_lt (by omega)]
          omega
      rw [hmove _ (Finset.mem_range.mpr hhole) (Finset.mem_range.mpr hwrap)]
      exact h.visited
    · refine le_trans (contents_mono (erase_subset _ _)) (le_trans (le_of_eq ?_) h.visited)
      rw [erase_eq_of_notMem (mt mem_range.mp hhole)]
      refine contents_congr fun i hi => update_of_ne ?_ _ _
      rintro rfl
      exact hhole (Finset.mem_range.mp hi)

end

theorem closeGap_spec (filled : Bool) (hfilled : filled ↔ 0 < p)
    (hfuel : t - q ≤ fuel) : ∃ data' filled',
      closeGap hashfn n fuel data ((start + p) % n) ((start + q) % n) filled =
        some (data', filled') ∧
      Placed n data' hashfn ∧ contents (range n) data' = elements ∧
      contents (range start) data' ≤ before ∧ (filled' ↔ data' start ≠ none) := by
  induction fuel generalizing data p q filled with
  | zero => exact absurd h.lt (by omega)
  | succ fuel ih =>
    have hlt := h.lt
    have ht := h.t_lt
    have hle := h.le
    have hn : 0 < n := by omega
    have hhole : (start + p) % n < n := mod_lt _ hn
    rw [closeGap, nextIndex_mod hn, add_assoc]
    cases hnext : data ((start + (q + 1)) % n) with
    | none =>
      refine ⟨update data ((start + p) % n) none, filled, rfl, ?_, ?_, ?_, ?_⟩
      · exact h.gap.close (by rw [h.next_eq]; exact hnext)
      · rw [contents_update (mem_range.mpr hhole), elim_none, zero_add, h.kept]
      · refine le_trans ?_ h.visited
        by_cases hmem : (start + p) % n ∈ Finset.range start
        · rw [contents_update hmem, elim_none, zero_add]
        · rw [erase_eq_of_notMem hmem]
          refine le_of_eq (contents_congr fun i hi => update_of_ne ?_ _ _)
          rintro rfl
          exact hmem hi
      · rw [hfilled, update_apply]
        have hstart : start = (start + p) % n ↔ p = 0 := by
          constructor
          · intro heq
            have hzero : (start + 0) % n = (start + p) % n := by
              rw [add_zero, mod_eq_of_lt h.start_lt]
              exact heq
            exact (offset_unique hn (by omega) hzero).symm
          · rintro rfl
            rw [add_zero, mod_eq_of_lt h.start_lt]
        split
        next heq => simp [hstart.mp heq]
        next hne => exact iff_of_true (pos_of_ne_zero (mt hstart.mpr hne)) h.start_full
    | some a =>
      obtain ⟨c, hc, hhome⟩ := exists_offset (mod_lt (hashfn a) hn) ((start + p) % n)
      have hlt' := h.next_ne hnext
      have htest := fillsGap_iff hhole (show q - p + 1 < n by omega) hc
      rw [h.next_eq, ← hhome, ← indexForHash_eq hn (hashfn a)] at htest
      dsimp only
      by_cases hfills : c = 0 ∨ q - p + 1 < c
      · rw [if_pos (htest.mpr hfills)]
        exact ih (h.move hnext hc hhome hfills) true (by simp) (by omega)
      · rw [if_neg (mt htest.mp hfills)]
        push Not at hfills
        exact ih (h.stay hnext (pos_of_ne_zero hfills.1) hfills.2 hhome) _ hfilled
          (by omega)

end Closing

variable {set : HashSet α}

theorem Sound.erase (hsound : set.Sound hashfn) (hroom : set.HasRoom)
    (hindex : index < set.numBuckets) {a : α} (ha : set.data index = some a) :
    ∃ set' next, set.erase hashfn index = some (set', next) ∧ set'.Sound hashfn ∧ set'.HasRoom ∧
      set'.numBuckets = set.numBuckets ∧ {a} + set'.elements = set.elements ∧
      contents (range index) set'.data ≤ contents (range index) set.data ∧
      (next = index ∧ set'.data index ≠ none ∨
        next = set'.nextNonEmptySlot index ∧ set'.data index = none) := by
  obtain ⟨i, hi, hnone⟩ := hsound.exists_empty hroom (by omega)
  obtain ⟨t, ht, rfl⟩ := exists_offset hi index
  have hmod : (index + 0) % set.numBuckets = index := mod_eq_of_lt hindex
  have htpos : 0 < t := by
    refine pos_of_ne_zero fun hzero => ?_
    rw [hzero, hmod, ha] at hnone
    cases hnone
  have hclosing : Closing hashfn set.numBuckets index set.data 0 0 t
      (contents ((Finset.range set.numBuckets).erase index) set.data)
      (contents (range index) set.data) := by
    refine ⟨hindex, le_refl 0, htpos, ht, ?_, hnone, ha ▸ some_ne_none a, ?_, ?_⟩
    · rw [hmod]
      exact .start hsound.placed hindex (ha ▸ some_ne_none a)
    · rw [hmod]
    · exact contents_mono (erase_subset _ _)
  obtain ⟨data', filled, hclose, hplaced, hcont, hvis, hfilled⟩ :=
    hclosing.closeGap_spec false (by simp) (show t - 0 ≤ set.numBuckets by omega)
  rw [hmod] at hclose
  have helements : {a} + contents (Finset.range set.numBuckets) data' = set.elements := by
    rw [hcont, elements, contents_erase (mem_range.mpr hindex), ha, elim_some]
  have hcard := congrArg Multiset.card helements
  rw [Multiset.card_add, Multiset.card_singleton, hsound.count] at hcard
  refine ⟨{ set with numElements := set.numElements - 1, data := data' }, _, by
    rw [HashSet.erase, hclose, map_some], ⟨hplaced, ?_, hsound.limit⟩, ?_, rfl, helements,
    hvis, ?_⟩
  · exact Nat.eq_sub_of_add_eq' hcard
  · exact hroom.imp_left fun h => lt_of_le_of_lt (sub_le _ 1) h
  · cases filled with
    | true => exact .inl ⟨rfl, hfilled.mp rfl⟩
    | false => exact .inr ⟨rfl, not_not.mp (mt hfilled.mpr false_ne_true)⟩

end Erasing

section Traversing

variable {set : HashSet α}

def IsIterator (set : HashSet α) (index : ℕ) : Prop :=
  index = set.numBuckets ∨ index < set.numBuckets ∧ set.data index ≠ none

theorem contents_range_of_free {next : ℕ} (hlt : index < next)
    (hfree : ∀ j, index < j → j < next → data j = none) : contents (range next) data =
      contents (range index) data + (data index).elim 0 ({·}) := by
  refine Eq.trans (sum_subset ?_ fun j hj hnot => ?_).symm (sum_range_succ _ index)
  · exact range_subset_range.mpr hlt
  · rw [Finset.mem_range] at hj hnot
    rw [hfree j (by omega) hj, elim_none]

theorem nextNonEmptySlot_spec (hindex : index < set.numBuckets) :
    set.IsIterator (set.nextNonEmptySlot index) ∧ index < set.nextNonEmptySlot index ∧
      contents (range (set.nextNonEmptySlot index)) set.data =
        contents (range index) set.data + (set.data index).elim 0 ({·}) := by
  rw [nextNonEmptySlot]
  cases hfind : (range' (index + 1) (set.numBuckets - (index + 1))).find? fun next =>
      (set.data next).isSome with
  | none =>
    rw [find?_range'_eq_none] at hfind
    refine ⟨.inl rfl, hindex, contents_range_of_free hindex fun j hj hlt => ?_⟩
    rw [getD_none] at hlt
    simpa using hfind j (by omega) (by omega)
  | some next =>
    rw [find?_range'_eq_some, mem_range'_1] at hfind
    obtain ⟨hsome, hmem, hbefore⟩ := hfind
    refine ⟨.inr ⟨?_, ?_⟩, ?_, contents_range_of_free ?_ fun j hj hlt => ?_⟩
    all_goals rw [getD_some] at *
    · omega
    · exact isSome_iff_ne_none.mp hsome
    · omega
    · omega
    · simpa using hbefore j (by omega) hlt

theorem traverse_spec (erases : List α → α → Bool) :
    ∀ {set : HashSet α} {index : ℕ} {visited : List α}, set.Sound hashfn → set.HasRoom →
      set.IsIterator index → contents (range index) set.data ≤ visited →
      set.numBuckets - index + set.numElements < fuel →
      ∃ last all, traverse hashfn erases fuel set index visited = some (last, all) ∧
        last.elements ≤ all := by
  induction fuel with
  | zero => exact fun _ _ _ _ hfuel => absurd hfuel (not_lt_zero _)
  | succ fuel ih =>
    intro set index visited hsound hroom hiterator hvis hfuel
    rw [traverse]
    obtain rfl | ⟨hindex, hfull⟩ := hiterator
    · exact ⟨set, visited, if_pos rfl, hvis⟩
    obtain ⟨a, ha⟩ := ne_none_iff_exists'.mp hfull
    rw [if_neg hindex.ne]
    simp only [ha]
    have hmore : (visited : Multiset α) ≤ (a :: visited : List α) := le_cons_self _ a
    split
    · obtain ⟨set', next, herase, hsound', hroom', hbuckets, helements, hbefore, hnext⟩ :=
        hsound.erase hroom hindex ha
      have hcard := congrArg Multiset.card helements
      rw [Multiset.card_add, Multiset.card_singleton, hsound.count, hsound'.count] at hcard
      rw [herase, bind_some]
      dsimp only
      obtain ⟨rfl, hfull'⟩ | ⟨rfl, hnone⟩ := hnext
      · exact ih hsound' hroom' (.inr ⟨hbuckets ▸ hindex, hfull'⟩)
          (hbefore.trans (hvis.trans hmore)) (by omega)
      · obtain ⟨hiterator', hlt, hcont⟩ := nextNonEmptySlot_spec (hbuckets ▸ hindex)
        refine ih hsound' hroom' hiterator' ?_ (by omega)
        rw [hcont, hnone, elim_none, add_zero]
        exact hbefore.trans (hvis.trans hmore)
    · obtain ⟨hiterator', hlt, hcont⟩ := nextNonEmptySlot_spec hindex
      refine ih hsound hroom hiterator' ?_ (by omega)
      rw [hcont, ha, Option.elim_some, add_comm, ← Multiset.cons_coe, ← Multiset.singleton_add]
      exact add_le_add_right hvis _

theorem begin_spec (set : HashSet α) :
    set.IsIterator set.begin ∧ contents (range set.begin) set.data = 0 := by
  rw [HashSet.begin]
  split
  next h =>
    obtain ⟨hiterator, -, hcont⟩ := nextNonEmptySlot_spec (pos_of_ne_zero h.1)
    exact ⟨hiterator, by rw [hcont, h.2]; rfl⟩
  next h =>
    refine ⟨?_, rfl⟩
    rcases Nat.eq_zero_or_pos set.numBuckets with hzero | hpos
    · exact .inl hzero.symm
    · exact .inr ⟨hpos, fun hnone => h ⟨hpos.ne', hnone⟩⟩

end Traversing

section Runs

theorem Sound.resize {set : HashSet α} (hsound : set.Sound hashfn) {newSize : ℕ}
    (hsize : set.numElements < max newSize kMinBuckets) :
    ∃ set', set.resize hashfn newSize = some set' ∧ set'.Sound hashfn ∧ set'.HasRoom ∧
      set'.elements = set.elements := by
  obtain ⟨set', hresize, hsound', hsame, hnum, hbuckets⟩ :=
    resize_spec hashfn hsound.count _ hsize.le
  exact ⟨set', hresize, hsound', .inl (by rw [hnum, hbuckets]; exact hsize), hsame⟩

theorem Sound.expand {set : HashSet α} (hsound : set.Sound hashfn) :
    ∃ set', set.expand hashfn = some set' ∧ set'.Sound hashfn ∧ set'.HasRoom ∧
      set'.elements = set.elements :=
  hsound.resize (by rw [kMinBuckets]; omega)

theorem Sound.shrinkToMaximumLoad {set : HashSet α} (hsound : set.Sound hashfn) :
    ∃ set', set.shrinkToMaximumLoad hashfn = some set' ∧ set'.Sound hashfn ∧ set'.HasRoom ∧
      set'.elements = set.elements :=
  hsound.resize (by rw [kMinBuckets]; omega)

theorem Sound.reserve {set : HashSet α} (hsound : set.Sound hashfn) (hroom : set.HasRoom)
    (numElements : ℕ) : ∃ set', set.reserve hashfn numElements = some set' ∧
      set'.Sound hashfn ∧ set'.HasRoom ∧ set'.elements = set.elements := by
  rw [HashSet.reserve]
  split
  next hlt =>
    have hcount := hsound.count
    refine hsound.resize ?_
    obtain hless | hzero := hroom
    · omega
    · rw [elements, hzero] at hcount
      simp only [contents, Finset.range_zero, Finset.sum_empty, card_zero] at hcount
      rw [kMinBuckets]
      omega
  next => exact ⟨set, rfl, hsound, hroom, rfl⟩

variable [DecidableEq α] {set : HashSet α} {inserted : Multiset α}

/-- The sets that sequences of operations lead to, with the elements that were inserted and not
erased. `Resize` is called by `Expand`, `Reserve` and `ShrinkToMaximumLoad` only. -/
inductive Reached (hashfn : α → ℕ) : HashSet α → Multiset α → Prop
  | empty : Reached hashfn {} 0
  | insert {set set' inserted} (a : α) : Reached hashfn set inserted →
      set.insert hashfn a = some set' → Reached hashfn set' (inserted + {a})
  | erase {set set' inserted index next} {a : α} : Reached hashfn set inserted →
      index < set.numBuckets → set.data index = some a →
      set.erase hashfn index = some (set', next) → Reached hashfn set' (inserted.erase a)
  | expand {set set' inserted} : Reached hashfn set inserted →
      set.expand hashfn = some set' → Reached hashfn set' inserted
  | reserve {set set' inserted} (numElements : ℕ) : Reached hashfn set inserted →
      set.reserve hashfn numElements = some set' → Reached hashfn set' inserted
  | shrinkToMaximumLoad {set set' inserted} : Reached hashfn set inserted →
      set.shrinkToMaximumLoad hashfn = some set' → Reached hashfn set' inserted

theorem Reached.sound (h : Reached hashfn set inserted) :
    set.Sound hashfn ∧ set.HasRoom ∧ set.elements = inserted := by
  induction h with
  | empty =>
    exact ⟨⟨fun _ hi => absurd hi (Nat.not_lt_zero _), rfl, (Nat.zero_div 10).symm⟩, .inr rfl, rfl⟩
  | insert a _ hinsert ih =>
    obtain ⟨set', hset', hsound, hroom, helements⟩ := ih.1.insert a
    obtain rfl := some.inj (hset'.symm.trans hinsert)
    exact ⟨hsound, hroom, helements.trans (congrArg (· + _) ih.2.2)⟩
  | erase _ hindex ha herase ih =>
    obtain ⟨set', next, hset', hsound, hroom, -, helements, -⟩ := ih.1.erase ih.2.1 hindex ha
    obtain ⟨rfl, rfl⟩ := Prod.mk.inj (some.inj (hset'.symm.trans herase))
    refine ⟨hsound, hroom, ?_⟩
    rw [← ih.2.2, ← helements, Multiset.singleton_add, Multiset.erase_cons_head]
  | expand _ hexpand ih =>
    obtain ⟨set', hset', hsound, hroom, hsame⟩ := ih.1.expand
    obtain rfl := some.inj (hset'.symm.trans hexpand)
    exact ⟨hsound, hroom, hsame.trans ih.2.2⟩
  | reserve numElements _ hreserve ih =>
    obtain ⟨set', hset', hsound, hroom, hsame⟩ := ih.1.reserve ih.2.1 numElements
    obtain rfl := some.inj (hset'.symm.trans hreserve)
    exact ⟨hsound, hroom, hsame.trans ih.2.2⟩
  | shrinkToMaximumLoad _ hshrink ih =>
    obtain ⟨set', hset', hsound, hroom, hsame⟩ := ih.1.shrinkToMaximumLoad
    obtain rfl := some.inj (hset'.symm.trans hshrink)
    exact ⟨hsound, hroom, hsame.trans ih.2.2⟩

/-- The elements of a list, inserted one after the other. -/
theorem exists_reached (hashfn : α → ℕ) (l : List α) :
    ∃ set, Reached hashfn set (l : Multiset α) := by
  induction l with
  | nil => exact ⟨{}, .empty⟩
  | cons a l ih =>
    obtain ⟨set, hset⟩ := ih
    obtain ⟨set', hinsert, -⟩ := hset.sound.1.insert a
    refine ⟨set', ?_⟩
    rw [← cons_coe, ← singleton_add, add_comm]
    exact hset.insert a hinsert

end Runs

end NougatArt.HashSet

import Mathlib

/-!
# Tables with linear probing

A table of `n` buckets is a function on bucket numbers. An element with a given hash is looked for
from the bucket of its hash on, around the end of the table, up to the first empty bucket. The
invariant `Placed` says that every element is found that way.
-/

namespace NougatArt.Probing

open Option Function Nat Multiset Finset

variable {α : Type*} {n i h d : ℕ} {slot slot' : ℕ → Option α} {hash : α → ℕ} {a : α}

theorem exists_offset (hi : i < n) (h : ℕ) : ∃ d < n, i = (h + d) % n := by
  have hn : 0 < n := by omega
  have hmod := mod_lt h hn
  refine ⟨(i + (n - h % n)) % n, mod_lt _ hn, ?_⟩
  rw [add_mod_mod, ← mod_add_mod h n,
    show h % n + (i + (n - h % n)) = i + n by omega, add_mod_right, mod_eq_of_lt hi]

theorem offset_unique {e : ℕ} (hd : d < n) (he : e < n) (heq : (h + d) % n = (h + e) % n) : d = e :=
  (Nat.ModEq.add_left_cancel' h heq).eq_of_lt_of_lt hd he

/-- Bucket `i` is reached from the bucket of hash `h` past buckets that are not empty. -/
def Reach (n : ℕ) (slot : ℕ → Option α) (h i : ℕ) : Prop :=
  ∃ d < n, i = (h + d) % n ∧ ∀ e < d, slot ((h + e) % n) ≠ none

variable (n slot hash) in
def Placed : Prop := ∀ i < n, ∀ a, slot i = some a → Reach n slot (hash a) i

theorem Reach.mono (hreach : Reach n slot h i)
    (hslot : ∀ j, slot j ≠ none → slot' j ≠ none) : Reach n slot' h i := by
  obtain ⟨d, hd, hi, hpath⟩ := hreach
  exact ⟨d, hd, hi, fun e he => hslot _ (hpath e he)⟩

section Contents

def contents (buckets : Finset ℕ) (slot : ℕ → Option α) : Multiset α :=
  ∑ i ∈ buckets, (slot i).elim 0 ({·})

variable {buckets : Finset ℕ}

theorem mem_contents : a ∈ contents buckets slot ↔ ∃ i ∈ buckets, slot i = some a := by
  rw [contents, mem_sum]
  refine exists_congr fun i => and_congr_right fun _ => ?_
  cases slot i with
  | none => simp
  | some b => simp [eq_comm]

theorem contents_congr (h : ∀ i ∈ buckets, slot i = slot' i) :
    contents buckets slot = contents buckets slot' :=
  sum_congr rfl fun i hi => by rw [h i hi]

theorem contents_mono {larger : Finset ℕ} (h : buckets ⊆ larger) :
    contents buckets slot ≤ contents larger slot :=
  sum_le_sum_of_subset h

theorem contents_erase (hi : i ∈ buckets) :
    contents buckets slot = (slot i).elim 0 ({·}) + contents (buckets.erase i) slot :=
  (add_sum_erase _ _ hi).symm

theorem contents_update (hi : i ∈ buckets) (v : Option α) :
    contents buckets (update slot i v) = v.elim 0 ({·}) + contents (buckets.erase i) slot := by
  rw [contents_erase hi, update_self]
  exact congrArg _ (contents_congr fun _ hj => update_of_ne (ne_of_mem_erase hj) _ _)

theorem card_contents_of_full (h : ∀ i ∈ buckets, slot i ≠ none) :
    card (contents buckets slot) = buckets.card := by
  rw [contents, card_sum, card_eq_sum_ones]
  refine sum_congr rfl fun i hi => ?_
  obtain ⟨a, ha⟩ := ne_none_iff_exists'.mp (h i hi)
  rw [ha]
  rfl

theorem exists_empty (h : card (contents (range n) slot) < n) : ∃ i < n, slot i = none := by
  by_contra hfull
  push Not at hfull
  rw [card_contents_of_full fun i hi => hfull i (Finset.mem_range.mp hi), Finset.card_range] at h
  exact lt_irrefl n h

end Contents

section Placing

/-- An element goes to the first empty bucket from that of its hash on. -/
theorem Placed.place (hplaced : Placed n slot hash) (hd : d < n)
    (hpath : ∀ e < d, slot ((hash a + e) % n) ≠ none) :
    Placed n (update slot ((hash a + d) % n) (some a)) hash := by
  have hgrows : ∀ j, slot j ≠ none → update slot ((hash a + d) % n) (some a) j ≠ none := by
    intro j hj
    rw [update_apply]
    split
    · exact some_ne_none a
    · exact hj
  intro i hi b hb
  rw [update_apply] at hb
  split at hb
  next heq =>
    cases hb
    exact ⟨d, hd, heq, fun e he => hgrows _ (hpath e he)⟩
  next => exact (hplaced i hi b hb).mono hgrows

theorem placed_empty : Placed n (fun _ => none) hash := fun _ _ _ h => nomatch h

end Placing

section Closing

/-! Closing a gap. The bucket `hole` is to become empty. The buckets behind it are gone through in
order; an element that is found from the hole or from before it moves there and leaves a new hole
behind. -/

variable (n slot hash) in
/-- The `k` buckets behind the hole are full of elements that are not reached through it. -/
structure Gap (hole k : ℕ) : Prop where
  hole_lt : hole < n
  full : ∀ d ≤ k, slot ((hole + d) % n) ≠ none
  placed : ∀ i < n, i ≠ hole → ∀ a, slot i = some a → Reach n slot (hash a) i
  behind : ∀ d ≤ k, 0 < d → ∀ a, slot ((hole + d) % n) = some a →
    ∃ c, 0 < c ∧ c ≤ d ∧ hash a % n = (hole + c) % n

variable {hole k : ℕ}

theorem Gap.start (hplaced : Placed n slot hash) (hhole : hole < n) (hfull : slot hole ≠ none) :
    Gap n slot hash hole 0 where
  hole_lt := hhole
  full d hd := by
    rw [le_zero.mp hd, add_zero, mod_eq_of_lt hhole]
    exact hfull
  placed i hi _ a ha := hplaced i hi a ha
  behind d hd hpos := absurd hd (by omega)

variable (hgap : Gap n slot hash hole k)

include hgap

/-- The next element is reached from a bucket behind the hole. -/
theorem Gap.stay (hnext : slot ((hole + (k + 1)) % n) = some a) {c : ℕ} (hpos : 0 < c)
    (hle : c ≤ k + 1) (hhome : hash a % n = (hole + c) % n) : Gap n slot hash hole (k + 1) where
  hole_lt := hgap.hole_lt
  full d hd := by
    rcases le_succ_iff.mp hd with hd | rfl
    · exact hgap.full d hd
    · exact hnext ▸ some_ne_none a
  placed := hgap.placed
  behind d hd hdpos b hb := by
    rcases le_succ_iff.mp hd with hd | rfl
    · exact hgap.behind d hd hdpos b hb
    · obtain rfl := some.inj (hnext.symm.trans hb)
      exact ⟨c, hpos, hle, hhome⟩

/-- The next element is reached from the hole or from before it. -/
theorem Gap.move (hnext : slot ((hole + (k + 1)) % n) = some a) (hk : k + 1 < n) {c : ℕ}
    (hc : c < n) (hhome : hash a % n = (hole + c) % n) (hbefore : c = 0 ∨ k + 1 < c) :
    Gap n (update slot hole (some a)) hash ((hole + (k + 1)) % n) 0 := by
  have hn : 0 < n := by omega
  have hhole : slot hole ≠ none := by
    have := hgap.full 0 (zero_le k)
    rwa [add_zero, mod_eq_of_lt hgap.hole_lt] at this
  have hne : hole ≠ (hole + (k + 1)) % n := by
    intro heq
    have := offset_unique (h := hole) (d := 0) hn hk
      (by rw [add_zero, mod_eq_of_lt hgap.hole_lt]; exact heq)
    omega
  have hkept : ∀ j, slot j ≠ none → update slot hole (some a) j ≠ none := by
    intro j hj
    rw [update_apply]
    split
    · exact some_ne_none a
    · exact hj
  have hlt := mod_lt (hole + (k + 1)) hn
  refine ⟨hlt, ?_, ?_, fun d hd hpos => absurd hd (by omega)⟩
  · intro d hd
    rw [le_zero.mp hd, add_zero, mod_mod]
    exact hkept _ (hnext ▸ some_ne_none a)
  · intro i hi hi' b hb
    by_cases heq : i = hole
    · subst heq
      rw [update_self] at hb
      cases hb
      obtain ⟨d, hd, hdi, hpath⟩ := hgap.placed _ hlt hne.symm a hnext
      -- The path to the next bucket goes through the hole.
      have hhash : (hash a + (n - c) % n) % n = i := by
        rw [← mod_add_mod, hhome, mod_add_mod, add_mod_mod,
          show i + c + (n - c) = i + n by omega, add_mod_right, mod_eq_of_lt hi]
      have hdist : (i + (k + 1)) % n = (i + (c + d)) % n := by
        rw [hdi, ← mod_add_mod, hhome, mod_add_mod, add_assoc]
      have hmod : k + 1 = (c + d) % n := offset_unique hk (mod_lt _ hn) (by rw [hdist, add_mod_mod])
      refine ⟨(n - c) % n, mod_lt _ hn, hhash.symm, fun e he => hkept _ (hpath e ?_)⟩
      rcases hbefore with rfl | hbefore
      · rw [Nat.sub_zero, Nat.mod_self] at he
        omega
      · rw [mod_eq_of_lt (by omega)] at he
        by_contra hnot
        rw [mod_eq_of_lt (by omega)] at hmod
        omega
    · rw [update_of_ne heq] at hb
      exact (hgap.placed i hi heq b hb).mono hkept

/-- The next bucket is empty, so that nothing is reached through the hole. -/
theorem Gap.close (hnext : slot ((hole + (k + 1)) % n) = none) :
    Placed n (update slot hole none) hash := by
  intro i hi a ha
  rw [update_apply] at ha
  split at ha
  · cases ha
  next hne =>
    obtain ⟨d, hd, hdi, hpath⟩ := hgap.placed i hi hne a ha
    refine ⟨d, hd, hdi, fun e he => ?_⟩
    rw [update_of_ne]
    · exact hpath e he
    intro hthrough
    have hi' : i = (hole + (d - e)) % n := by
      rw [hdi, ← hthrough, mod_add_mod, show hash a + e + (d - e) = hash a + d by omega]
    rcases lt_or_ge k (d - e) with hfar | hnear
    · -- The path would go through the empty bucket.
      have hempty : slot ((hash a + (e + (k + 1))) % n) = none := by
        rw [← add_assoc, ← mod_add_mod, hthrough]
        exact hnext
      rcases lt_or_ge (e + (k + 1)) d with hlt | hge
      · exact hpath _ hlt hempty
      · rw [show e + (k + 1) = d by omega, ← hdi, ha] at hempty
        cases hempty
    · obtain ⟨c, hcpos, hcle, hhome⟩ := hgap.behind (d - e) hnear (by omega) a (hi' ▸ ha)
      have hwrap : (hole + 0) % n = (hole + (c + e)) % n := by
        rw [add_zero, mod_eq_of_lt hgap.hole_lt]
        conv_lhs => rw [← hthrough]
        rw [← mod_add_mod, hhome, mod_add_mod, add_assoc]
      have := offset_unique (by omega) (by omega) hwrap
      omega

end Closing

end NougatArt.Probing

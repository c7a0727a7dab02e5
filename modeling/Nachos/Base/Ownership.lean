import Mathlib.Data.Finset.Card
import Mathlib.Algebra.BigOperators.Group.Finset.Basic
import Mathlib.Data.List.Nodup

namespace Nachos.Base

/-!
# Base — who owns which unit of a resource

Frames of memory, sectors of a disk: a resource is a set of numbered units, a set of parties
is alive, and each of them holds a list of units. `Owned live own used` says that the units
marked as used are exactly those held by a live party, and that none is held twice:

* `Owned.take` — a party that holds nothing takes a list of unused units;
* `Owned.release` — a party goes away and its units become unused;
* `Owned.congr` — what the other parties hold does not matter;
* `Owned.card_used` — the used units are as many as the live parties hold together.
-/

variable {K ι : Type*} [DecidableEq K] [DecidableEq ι]

/-- The used units are exactly those held by a live party, and no unit is held twice. -/
structure Owned (live : Finset K) (own : K → List ι) (used : Finset ι) : Prop where
  nodup : ∀ k ∈ live, (own k).Nodup
  disjoint : ∀ k ∈ live, ∀ k' ∈ live, k ≠ k' → (own k).Disjoint (own k')
  mem_used : ∀ i, i ∈ used ↔ ∃ k ∈ live, i ∈ own k

namespace Owned

variable {live : Finset K} {own own' : K → List ι} {used : Finset ι}

omit [DecidableEq K] [DecidableEq ι] in
theorem empty (own : K → List ι) : Owned ∅ own ∅ :=
  ⟨by simp, by simp, by simp⟩

omit [DecidableEq K] [DecidableEq ι] in
/-- Only the lists of the live parties matter. -/
theorem congr (h : Owned live own used) (heq : ∀ k ∈ live, own' k = own k) :
    Owned live own' used := by
  refine ⟨fun k hk => ?_, fun k hk k' hk' hne => ?_, fun i => ?_⟩
  · rw [heq k hk]; exact h.nodup k hk
  · rw [heq k hk, heq k' hk']; exact h.disjoint k hk k' hk' hne
  · rw [h.mem_used i]
    refine exists_congr fun k => and_congr_right fun hk => ?_
    rw [heq k hk]

/-- A party that holds nothing takes a list of unused units. -/
theorem take (h : Owned live own used) {k : K} {l : List ι} (hk : k ∈ live → own k = [])
    (hl : l.Nodup) (hfresh : ∀ i ∈ l, i ∉ used) :
    Owned (insert k live) (Function.update own k l) (used ∪ l.toFinset) := by
  -- Seen from any other party, the units of `l` belong to nobody.
  have hother : ∀ k' ∈ live, k' ≠ k → l.Disjoint (own k') := by
    intro k' hk' _ i hi hi'
    exact hfresh i hi ((h.mem_used i).mpr ⟨k', hk', hi'⟩)
  refine ⟨fun a ha => ?_, fun a ha b hb hab => ?_, fun i => ?_⟩
  · by_cases hak : a = k
    · subst hak; simpa using hl
    · have ha' : a ∈ live := by simpa [hak] using ha
      simpa [hak] using h.nodup a ha'
  · by_cases hak : a = k
    · subst hak
      have hb' : b ∈ live := by simpa [Ne.symm hab] using hb
      simpa [Ne.symm hab] using hother b hb' (Ne.symm hab)
    · have ha' : a ∈ live := by simpa [hak] using ha
      by_cases hbk : b = k
      · subst hbk
        simpa [hak] using (hother a ha' hak).symm
      · have hb' : b ∈ live := by simpa [hbk] using hb
        simpa [hak, hbk] using h.disjoint a ha' b hb' hab
  · rw [Finset.mem_union, h.mem_used i, List.mem_toFinset]
    constructor
    · rintro (⟨k', hk', hi⟩ | hi)
      · have hne : k' ≠ k := by
          rintro rfl
          rw [hk hk'] at hi
          exact absurd hi (List.not_mem_nil)
        exact ⟨k', Finset.mem_insert_of_mem hk', by simpa [hne] using hi⟩
      · exact ⟨k, Finset.mem_insert_self k live, by simpa using hi⟩
    · rintro ⟨k', hk', hi⟩
      by_cases hne : k' = k
      · subst hne; exact .inr (by simpa using hi)
      · exact .inl ⟨k', by simpa [hne] using hk', by simpa [hne] using hi⟩

/-- A party goes away and its units become unused. -/
theorem release (h : Owned live own used) {k : K} (hk : k ∈ live) :
    Owned (live.erase k) own (used \ (own k).toFinset) := by
  refine ⟨fun a ha => h.nodup a (Finset.mem_of_mem_erase ha), fun a ha b hb hab => ?_,
    fun i => ?_⟩
  · exact h.disjoint a (Finset.mem_of_mem_erase ha) b (Finset.mem_of_mem_erase hb) hab
  · rw [Finset.mem_sdiff, h.mem_used i, List.mem_toFinset]
    constructor
    · rintro ⟨⟨k', hk', hi⟩, hnot⟩
      have hne : k' ≠ k := by rintro rfl; exact hnot hi
      exact ⟨k', Finset.mem_erase.mpr ⟨hne, hk'⟩, hi⟩
    · rintro ⟨k', hk', hi⟩
      obtain ⟨hne, hk''⟩ := Finset.mem_erase.mp hk'
      exact ⟨⟨k', hk'', hi⟩, fun hi' => h.disjoint k' hk'' k hk hne hi hi'⟩

omit [DecidableEq K] in
/-- The used units are as many as the live parties hold together. -/
theorem card_used (h : Owned live own used) : used.card = ∑ k ∈ live, (own k).length := by
  have hunion : used = live.biUnion fun k => (own k).toFinset := by
    ext i
    simp [h.mem_used i]
  rw [hunion, Finset.card_biUnion]
  · exact Finset.sum_congr rfl fun k hk => List.toFinset_card_of_nodup (h.nodup k hk)
  · intro a ha b hb hab
    exact List.disjoint_toFinset_iff_disjoint.mpr (h.disjoint a ha b hb hab)

end Owned

end Nachos.Base

import Mathlib.Data.Finset.Card
import Mathlib.Logic.Equiv.Basic

/-!
# How many hold a share

Each of finitely many holders has a share in at most one block. The number of
holders of a block is what a reference count should be. It follows the shares
when a holder gains or loses one, when holders exchange theirs, and when a
holder without a share comes or goes.
-/

namespace KernelLib.ShareCounts

variable {H B : Type*} [DecidableEq B]

/-- The holders of a share in a block. -/
def holders (live : Finset H) (share : H → Option B) (b : B) : Finset H :=
  live.filter fun h => share h = some b

/-- Their number. -/
def count (live : Finset H) (share : H → Option B) (b : B) : ℕ := (holders live share b).card

section Shares

variable {live : Finset H} {share share' : H → Option B} {b c : B} {h : H}

theorem mem_holders : h ∈ holders live share b ↔ h ∈ live ∧ share h = some b := Finset.mem_filter

theorem count_pos (hm : h ∈ live) (hs : share h = some b) : 0 < count live share b :=
  Finset.card_pos.mpr ⟨h, mem_holders.mpr ⟨hm, hs⟩⟩

/-- Without holders there are no shares. -/
theorem share_ne_of_count_eq_zero (hc : count live share b = 0) (hm : h ∈ live) :
    share h ≠ some b :=
  fun hs => (count_pos hm hs).ne' hc

/-- A holder of no share in a block leaves the count below the number of all. -/
theorem count_lt_card (hm : h ∈ live) (hs : share h ≠ some b) : count live share b < live.card :=
  Finset.card_lt_card ((Finset.filter_ssubset).mpr ⟨h, hm, hs⟩)

theorem count_congr (hs : ∀ i ∈ live, share' i = share i) :
    count live share' b = count live share b := by
  rw [count, count, holders, holders, Finset.filter_congr fun i hi => by rw [hs i hi]]

/-- A share that is gained or lost in one block is none in another. -/
theorem count_of_ne (hs : share h = none ∨ share h = some c)
    (hs' : share' h = none ∨ share' h = some c)
    (hne : b ≠ c) (hothers : ∀ i ∈ live, i ≠ h → share' i = share i) :
    count live share' b = count live share b := by
  rw [count, count, holders, holders]
  refine congrArg Finset.card (Finset.filter_congr fun i hi => ?_)
  rcases eq_or_ne i h with rfl | hih
  · rcases hs with hs | hs <;> rcases hs' with hs' | hs' <;> simp [hs, hs', hne.symm]
  · rw [hothers i hi hih]

end Shares

section Changes

variable [DecidableEq H] {live : Finset H} {share share' : H → Option B} {b : B} {h r : H}

/-- A holder without a share comes. -/
theorem count_insert (hs : share h = none) :
    count (insert h live) share b = count live share b := by
  rw [count, count, holders, holders, Finset.filter_insert, if_neg (by simp [hs])]

/-- A holder without a share goes. -/
theorem count_erase (hs : share h = none) : count (live.erase h) share b = count live share b := by
  have hnot : h ∉ holders live share b := fun hin => by simp [mem_holders, hs] at hin
  rw [count, count, holders, Finset.filter_erase]
  exact congrArg Finset.card (Finset.erase_eq_of_notMem hnot)

/-- A holder gains a share in a block. -/
theorem count_gain (hm : h ∈ live) (hs : share h = none) (hs' : share' h = some b)
    (hothers : ∀ i ∈ live, i ≠ h → share' i = share i) :
    count live share' b = count live share b + 1 := by
  have hnot : h ∉ holders live share b := fun hin => by simp [mem_holders, hs] at hin
  have heq : holders live share' b = insert h (holders live share b) := by
    ext i
    rw [mem_holders, Finset.mem_insert, mem_holders]
    rcases eq_or_ne i h with rfl | hne
    · simp [hm, hs']
    · constructor
      · rintro ⟨hi, hb⟩
        exact Or.inr ⟨hi, hothers i hi hne ▸ hb⟩
      · rintro (hi | ⟨hi, hb⟩)
        · exact absurd hi hne
        · exact ⟨hi, (hothers i hi hne).trans hb⟩
  rw [count, heq, Finset.card_insert_of_notMem hnot, count]

/-- A holder loses its share in a block. -/
theorem count_lose (hm : h ∈ live) (hs : share h = some b) (hs' : share' h = none)
    (hothers : ∀ i ∈ live, i ≠ h → share' i = share i) :
    count live share' b + 1 = count live share b :=
  (count_gain hm hs' hs fun i hi hne => (hothers i hi hne).symm).symm

/-- Two holders exchange their shares. -/
theorem count_exchange (hm : h ∈ live) (hr : r ∈ live)
    (hs : ∀ i ∈ live, share' i = share (Equiv.swap h r i)) :
    count live share' b = count live share b := by
  refine Finset.card_equiv (Equiv.swap h r) fun i => ?_
  have hin : i ∈ live ↔ Equiv.swap h r i ∈ live := by
    rw [Equiv.swap_apply_def]
    split_ifs with h₁ h₂
    · simp [h₁, hm, hr]
    · simp [h₂, hm, hr]
    · rfl
  rw [mem_holders, mem_holders]
  constructor
  · rintro ⟨hi, hb⟩
    exact ⟨hin.mp hi, hs i hi ▸ hb⟩
  · rintro ⟨hi, hb⟩
    exact ⟨hin.mpr hi, (hs i (hin.mpr hi)).trans hb⟩

end Changes

end KernelLib.ShareCounts

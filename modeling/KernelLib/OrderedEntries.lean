import Mathlib.Data.List.TakeWhile
import Mathlib.Data.List.Pairwise

/-!
# Sorted entries as a finite map

Entries sorted by a key under a strict weak order, as C++ containers ask of
`operator<`. Keys that neither precede nor follow one another count as the
same key. Looking up, placing and dropping an entry are stated on lists; the
split around a key says where a comparison search ends. The laws at the end
are those of a finite map.
-/

namespace KernelLib.OrderedEntries

variable {K α : Type}

/-- `operator<` is irreflexive and transitive, and so is being neither less
nor greater. -/
structure StrictWeak (lt : K → K → Bool) : Prop where
  irrefl : ∀ a, lt a a = false
  trans : ∀ a b c, lt a b → lt b c → lt a c
  cotrans : ∀ a b c, lt a c → lt a b ∨ lt b c

/-- Two keys that neither precede one another. -/
def equiv (lt : K → K → Bool) (a b : K) : Bool := !lt a b && !lt b a

/-- Entries in strictly increasing order of their keys. -/
def Sorted (lt : K → K → Bool) (key : α → K) (l : List α) : Prop :=
  l.Pairwise fun x y => lt (key x) (key y)

/-- The entry with a key, if there is one. -/
def find (lt : K → K → Bool) (key : α → K) (k : K) (l : List α) : Option α :=
  l.find? fun x => equiv lt (key x) k

/-- Put an entry where its key belongs. -/
def place (lt : K → K → Bool) (key : α → K) (x : α) (l : List α) : List α :=
  l.takeWhile (fun y => lt (key y) (key x)) ++ x :: l.dropWhile fun y => lt (key y) (key x)

/-- Drop the entry with a key. -/
def without (lt : K → K → Bool) (key : α → K) (k : K) (l : List α) : List α :=
  l.filter fun x => !equiv lt (key x) k

/-- A key between the entries before and after it, at the entry it finds. -/
structure Splits (lt : K → K → Bool) (key : α → K) (k : K) (us : List α) (e : Option α)
    (vs : List α) : Prop where
  below : ∀ x ∈ us, lt (key x) k
  found : ∀ x ∈ e, equiv lt (key x) k
  above : ∀ x ∈ vs, lt k (key x)

variable {lt : K → K → Bool} {key : α → K} {k k' a b c : K} {l us vs : List α} {e : Option α} {x : α}

section Order

theorem StrictWeak.asymm (h : StrictWeak lt) (hab : lt a b) : lt b a = false := by
  by_contra hba
  have hx := h.trans a b a hab (by simpa using hba)
  simp [h.irrefl] at hx

theorem equiv_iff : equiv lt a b ↔ lt a b = false ∧ lt b a = false := by
  simp [equiv]

theorem StrictWeak.equiv_refl (h : StrictWeak lt) (a : K) : equiv lt a a := by
  simp [equiv, h.irrefl]

theorem equiv_comm : equiv lt a b = equiv lt b a := by
  simp [equiv, Bool.and_comm]

/-- A key between two equivalent ones does not exist: the order carries over. -/
theorem StrictWeak.lt_of_lt_equiv (h : StrictWeak lt) (hab : lt a b) (hbc : equiv lt b c) :
    lt a c := by
  rcases h.cotrans a c b hab with hx | hx
  · exact hx
  · rw [(equiv_iff.mp hbc).2] at hx
    cases hx

theorem StrictWeak.lt_of_equiv_lt (h : StrictWeak lt) (hab : equiv lt a b) (hbc : lt b c) :
    lt a c := by
  rcases h.cotrans b a c hbc with hx | hx
  · rw [(equiv_iff.mp hab).2] at hx
    cases hx
  · exact hx

theorem StrictWeak.equiv_trans (h : StrictWeak lt) (hab : equiv lt a b) (hbc : equiv lt b c) :
    equiv lt a c := by
  rw [equiv_iff]
  constructor
  · by_contra hx
    have hac : lt a c := by simpa using hx
    have hbc' := h.lt_of_equiv_lt (equiv_comm.trans hab) hac
    rw [(equiv_iff.mp hbc).1] at hbc'
    cases hbc'
  · by_contra hx
    have hca : lt c a := by simpa using hx
    have hcb := h.lt_of_lt_equiv hca hab
    rw [(equiv_iff.mp hbc).2] at hcb
    cases hcb

/-- Equivalent keys are found alike. -/
theorem StrictWeak.equiv_congr (h : StrictWeak lt) (hab : equiv lt a b) (c : K) :
    equiv lt c a = equiv lt c b := by
  rw [Bool.eq_iff_iff]
  exact ⟨fun hc => h.equiv_trans hc hab, fun hc => h.equiv_trans hc (equiv_comm.trans hab)⟩

end Order

section Split

theorem not_equiv_of_lt (h : lt a b) : equiv lt a b = false := by
  simp [equiv, h]

/-- Sorted entries split around every key. -/
theorem Sorted.exists_splits (h : StrictWeak lt) (hl : Sorted lt key l) (k : K) :
    ∃ us e vs, l = us ++ e.toList ++ vs ∧ Splits lt key k us e vs := by
  induction l with
  | nil => exact ⟨[], none, [], rfl, ⟨by simp, by simp, by simp⟩⟩
  | cons x l ih =>
    obtain ⟨hx, hl⟩ := List.pairwise_cons.mp hl
    by_cases hlt : lt (key x) k
    · obtain ⟨us, e, vs, rfl, hs⟩ := ih hl
      exact ⟨x :: us, e, vs, rfl, List.forall_mem_cons.mpr ⟨hlt, hs.below⟩, hs.found, hs.above⟩
    · by_cases hgt : lt k (key x)
      · refine ⟨[], none, x :: l, rfl, by simp, by simp, List.forall_mem_cons.mpr ⟨hgt, ?_⟩⟩
        exact fun y hy => h.trans _ _ _ hgt (hx y hy)
      · have heq : equiv lt (key x) k := by simp [equiv, hlt, hgt]
        refine ⟨[], some x, l, rfl, by simp, by simpa using heq, ?_⟩
        exact fun y hy => h.lt_of_equiv_lt (equiv_comm.trans heq) (hx y hy)

/-- The entry a key is split at is the one it finds. -/
theorem Splits.find_eq (hs : Splits lt key k us e vs) :
    find lt key k (us ++ e.toList ++ vs) = e := by
  have hus : us.find? (fun x => equiv lt (key x) k) = none := by
    rw [List.find?_eq_none]
    exact fun x hx => by simp [not_equiv_of_lt (hs.below x hx)]
  have hvs : vs.find? (fun x => equiv lt (key x) k) = none := by
    rw [List.find?_eq_none]
    exact fun x hx => by simp [equiv, hs.above x hx]
  rw [find, List.find?_append, List.find?_append, hus, hvs]
  cases e with
  | none => rfl
  | some x => simp [hs.found x rfl]

/-- Dropping a key leaves the entries on both sides. -/
theorem Splits.without_eq (hs : Splits lt key k us e vs) :
    without lt key k (us ++ e.toList ++ vs) = us ++ vs := by
  have hus : us.filter (fun x => !equiv lt (key x) k) = us := by
    rw [List.filter_eq_self]
    exact fun x hx => by simp [not_equiv_of_lt (hs.below x hx)]
  have hvs : vs.filter (fun x => !equiv lt (key x) k) = vs := by
    rw [List.filter_eq_self]
    exact fun x hx => by simp [equiv, hs.above x hx]
  rw [without, List.filter_append, List.filter_append, hus, hvs]
  cases e with
  | none => simp
  | some x => simp [hs.found x rfl]

/-- A new entry is placed between both sides. -/
theorem Splits.place_eq (h : StrictWeak lt) (hs : Splits lt key k us none vs)
    (hx : equiv lt (key x) k) : place lt key x (us ++ vs) = us ++ x :: vs := by
  have hus : ∀ y ∈ us, lt (key y) (key x) := fun y hy =>
    h.lt_of_lt_equiv (hs.below y hy) (equiv_comm.trans hx)
  have hvs : ∀ y ∈ vs, lt (key y) (key x) = false := fun y hy =>
    h.asymm (h.lt_of_equiv_lt hx (hs.above y hy))
  have htake : vs.takeWhile (fun y => lt (key y) (key x)) = [] := by
    cases vs with
    | nil => rfl
    | cons y vs => simp [hvs y List.mem_cons_self]
  have hdrop : vs.dropWhile (fun y => lt (key y) (key x)) = vs := by
    cases vs with
    | nil => rfl
    | cons y vs => simp [hvs y List.mem_cons_self]
  rw [place, List.takeWhile_append_of_pos hus, List.dropWhile_append_of_pos hus, htake, hdrop,
    List.append_nil]

/-- Entries stay sorted around a new one. -/
theorem Splits.sorted (h : StrictWeak lt) (hl : Sorted lt key (us ++ vs))
    (hs : Splits lt key k us none vs) (hx : equiv lt (key x) k) :
    Sorted lt key (us ++ x :: vs) := by
  obtain ⟨hus, hvs, hd⟩ := List.pairwise_append.mp hl
  refine List.pairwise_append.mpr ⟨hus, List.pairwise_cons.mpr ⟨?_, hvs⟩, ?_⟩
  · exact fun y hy => h.lt_of_equiv_lt hx (hs.above y hy)
  · intro y hy z hz
    rcases List.mem_cons.mp hz with rfl | hz
    · exact h.lt_of_lt_equiv (hs.below y hy) (equiv_comm.trans hx)
    · exact hd y hy z hz

end Split

section FiniteMap

/-- Equivalent keys find the same entry. -/
theorem find_congr (h : StrictWeak lt) (hk : equiv lt k k') (l : List α) :
    find lt key k l = find lt key k' l := by
  simp only [find, h.equiv_congr hk]

/-- Lookup after placing a new key. -/
theorem find_place (h : StrictWeak lt) (hl : Sorted lt key l) (hn : find lt key (key x) l = none)
    (k' : K) : find lt key k' (place lt key x l) =
      if equiv lt (key x) k' then some x else find lt key k' l := by
  obtain ⟨us, e, vs, rfl, hs⟩ := hl.exists_splits h (key x)
  obtain rfl : e = none := hs.find_eq.symm.trans hn
  simp only [Option.toList_none, List.append_nil] at hn ⊢
  rw [hs.place_eq h (h.equiv_refl _), find, find, List.find?_append, List.find?_append,
    List.find?_cons]
  by_cases hk : equiv lt (key x) k'
  · have hus : us.find? (fun y => equiv lt (key y) k') = none := by
      rw [List.find?_eq_none]
      intro y hy
      rw [← h.equiv_congr hk]
      simp [not_equiv_of_lt (hs.below y hy)]
    simp [hk, hus]
  · simp [hk]

/-- Lookup after dropping a key. -/
theorem find_without (h : StrictWeak lt) (k k' : K) (l : List α) :
    find lt key k' (without lt key k l) = if equiv lt k k' then none else find lt key k' l := by
  rw [find, without, List.find?_filter]
  by_cases hk : equiv lt k k'
  · rw [if_pos hk, List.find?_eq_none]
    intro y _
    rw [h.equiv_congr hk]
    simp
  · rw [if_neg hk, find]
    congr 1
    funext y
    cases hy : equiv lt (key y) k' with
    | false => simp
    | true =>
      have hyk : equiv lt (key y) k = false := by
        by_contra hx
        have hx' : equiv lt (key y) k := by simpa using hx
        exact hk (h.equiv_trans (equiv_comm.trans hx') hy)
      simp [hyk]

end FiniteMap

end KernelLib.OrderedEntries

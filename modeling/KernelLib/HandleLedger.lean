import Mathlib.Data.List.Count

/-!
# Scripts of calls

A script calls a system that may answer as it likes, and keeps books of the
handles it is given: which are open, which calls it made, and which of them
went to a handle that was not open. Answers come in a list; a script that has
used up its answers is still waiting. What a script does is stated by triples,
for all answers; a loop keeps what its body keeps.
-/

namespace KernelLib.HandleLedger

/-- The books of a script that makes calls `C` and gets answers `R`. -/
structure Ledger (C R : Type) where
  /-- How many handles were opened. -/
  opened : ℕ
  /-- The handles that are open, the last one first. -/
  live : List ℕ
  /-- The calls and their answers. -/
  log : List (C × R)
  /-- Calls with a handle that was not open, or with none. -/
  strays : List (C × Option ℕ)
  /-- The calls with a handle, and the handle. -/
  uses : List (C × Option ℕ)

variable {C R α β : Type}

/-- Nothing was called yet. -/
def Ledger.empty : Ledger C R := ⟨0, [], [], [], []⟩

/-- A script: the answers that are left and the books, before and after. -/
abbrev Script (C R : Type) := StateT (Ledger C R) (StateT (List R) Option)

/-- Make a call and get an answer. -/
def ask (c : C) : Script C R R := fun l as =>
  match as with
  | [] => none
  | r :: as => some ((r, { l with log := l.log ++ [(c, r)] }), as)

/-- The books after a call with a handle, which should be open. -/
def Ledger.note (c : C) (h : Option ℕ) (l : Ledger C R) : Ledger C R :=
  if h.any (· ∈ l.live) then l else { l with strays := l.strays ++ [(c, h)] }

/-- The books after a use of a handle. -/
def Ledger.use (c : C) (h : Option ℕ) (l : Ledger C R) : Ledger C R :=
  { l.note c h with uses := l.uses ++ [(c, h)] }

/-- The handles that such calls were made with. -/
def Ledger.usedBy (p : C → Bool) (l : Ledger C R) : List ℕ :=
  l.uses.filterMap fun e => if p e.1 then e.2 else none

/-- Make a call with a handle. -/
def askOn (c : C) (h : Option ℕ) : Script C R R := do
  modify fun l => l.use c h
  ask c

/-- A new handle. -/
def acquire : Script C R ℕ :=
  modifyGet fun l => (l.opened, { l with opened := l.opened + 1, live := l.opened :: l.live })

/-- Close a handle. -/
def release (c : C) (h : Option ℕ) : Script C R Unit :=
  modify fun l => { l.note c h with live := h.elim l.live l.live.erase }

/-- Repeat a script until it has a result, for so many rounds. -/
def rounds (body : Script C R (Option α)) : ℕ → Script C R α
  | 0 => fun _ _ => none
  | n + 1 => do
    match ← body with
    | some a => return a
    | none => rounds body n

/-- Repeat a script until it has a result. A round takes an answer, so there are rounds enough. -/
def forever (body : Script C R (Option α)) : Script C R α := fun l as =>
  rounds body (as.length + 1) l as

/-- Whatever the answers are: a script that ends leads from one condition to another. -/
def Triple (P : Ledger C R → Prop) (p : Script C R α) (Q : α → Ledger C R → Prop) : Prop :=
  ∀ l as a l' as', P l → p l as = some ((a, l'), as') → Q a l'

section Rules

variable {P P' : Ledger C R → Prop} {Q Q' : α → Ledger C R → Prop} {p : Script C R α} {c : C}
  {h : Option ℕ}

/-- A script that calls nothing leaves what was there. -/
theorem triple_pure {a : α} (h : ∀ l, P l → Q a l) : Triple P (pure a : Script C R α) Q := by
  rintro l as b l' as' hP he
  have he' : some ((a, l), as) = some ((b, l'), as') := he
  obtain ⟨⟨rfl, rfl⟩, -⟩ : (a = b ∧ l = l') ∧ as = as' := by simpa using he'
  exact h l hP

/-- A script leads somewhere. -/
theorem triple_true (p : Script C R α) : Triple P p fun _ _ => True :=
  fun _ _ _ _ _ _ _ => trivial

/-- One script after the other. -/
theorem Triple.bind {f : α → Script C R β} {S : β → Ledger C R → Prop} (hp : Triple P p Q)
    (hf : ∀ a, Triple (Q a) (f a) S) : Triple P (p >>= f) S := by
  intro l as b l' as' hP he
  obtain ⟨⟨⟨a, l₁⟩, as₁⟩, h₁, h₂⟩ := Option.bind_eq_some_iff.mp he
  exact hf a l₁ as₁ b l' as' (hp l as a l₁ as₁ hP h₁) h₂

/-- Less is asked for, and more is promised. -/
theorem Triple.conseq (h : Triple P p Q) (hP : ∀ l, P' l → P l) (hQ : ∀ a l, Q a l → Q' a l) :
    Triple P' p Q' :=
  fun l as a l' as' hl he => hQ a l' (h l as a l' as' (hP l hl) he)

/-- Two conditions are kept next to each other. -/
theorem Triple.and {S : α → Ledger C R → Prop} (h : Triple P p Q) (h' : Triple P' p S) :
    Triple (fun l => P l ∧ P' l) p fun a l => Q a l ∧ S a l :=
  fun l as a l' as' hl he => ⟨h l as a l' as' hl.1 he, h' l as a l' as' hl.2 he⟩

/-- A stronger condition to begin with will do. -/
theorem Triple.pre (h : Triple P p Q) (hP : ∀ l, P' l → P l) : Triple P' p Q :=
  h.conseq hP fun _ _ => id

/-- A weaker condition in the end is kept. -/
theorem Triple.post (h : Triple P p Q) (hQ : ∀ a l, Q a l → Q' a l) : Triple P p Q' :=
  h.conseq (fun _ => id) hQ

/-- A condition that does not speak of the books. -/
theorem triple_of {φ : Prop} (h : φ → Triple P p Q) : Triple (fun l => φ ∧ P l) p Q :=
  fun l as a l' as' hl he => h hl.1 l as a l' as' hl.2 he

/-- A call adds its answer to the log, whatever it is. -/
theorem triple_ask {Q : R → Ledger C R → Prop} :
    Triple (fun l => ∀ r, Q r { l with log := l.log ++ [(c, r)] }) (ask c) Q := by
  intro l as r l' as' hQ he
  cases as with
  | nil => cases he
  | cons r₀ as =>
    obtain ⟨⟨rfl, rfl⟩, -⟩ : (r₀ = r ∧ { l with log := l.log ++ [(c, r₀)] } = l') ∧ as = as' := by
      simpa [ask] using he
    exact hQ _

/-- The books are changed. -/
theorem triple_modifyGet {f : Ledger C R → α × Ledger C R} :
    Triple (fun l => Q (f l).1 (f l).2) (modifyGet f : Script C R α) Q := by
  intro l as a l' as' hQ he
  have he' : some (f l, as) = some ((a, l'), as') := he
  obtain ⟨hf, -⟩ : f l = (a, l') ∧ as = as' := by simpa using he'
  rwa [hf] at hQ

/-- Rounds keep what each of them keeps. -/
theorem triple_rounds {I : Ledger C R → Prop} {body : Script C R (Option α)}
    (hbody : Triple I body fun o l => o.elim (I l) fun a => Q a l) (n : ℕ) :
    Triple I (rounds body n) Q := by
  induction n with
  | zero => exact fun _ _ _ _ _ _ he => nomatch he
  | succ n ih =>
    refine hbody.bind fun o => ?_
    cases o with
    | none => exact ih
    | some a => exact triple_pure fun _ h => h

/-- A loop keeps what its body keeps, and ends with what its last round gives. -/
theorem triple_forever {I : Ledger C R → Prop} {body : Script C R (Option α)}
    (hbody : Triple I body fun o l => o.elim (I l) fun a => Q a l) : Triple I (forever body) Q :=
  fun l as => triple_rounds hbody (as.length + 1) l as

end Rules

section Books

variable {q : C × R → Bool} {L : List ℕ} {S : List (C × Option ℕ)} {n k : ℕ} {c : C}

/-- What is open, what went astray, and how many calls were of a kind. -/
structure Books (q : C × R → Bool) (L : List ℕ) (S : List (C × Option ℕ)) (n : ℕ) (l : Ledger C R) :
    Prop where
  live : l.live = L
  strays : l.strays = S
  count : l.log.countP q = n

/-- A call of another kind. -/
theorem triple_ask_books (hc : ∀ r, q (c, r) = false) :
    Triple (Books q L S n) (ask c) fun _ => Books q L S n := by
  refine triple_ask.pre fun l h r => ⟨h.live, h.strays, ?_⟩
  rw [List.countP_append, h.count, List.countP_singleton, hc r]
  rfl

/-- A call with an open handle is no stray. -/
theorem Books.note {l : Ledger C R} (h : Books q L S n l) (hk : k ∈ L) : l.note c (some k) = l := by
  simp [Ledger.note, h.live, hk]

/-- It does not change what is open. -/
theorem Books.use {l : Ledger C R} (h : Books q L S n l) (hk : k ∈ L) :
    Books q L S n (l.use c (some k)) := by
  rw [Ledger.use, h.note hk]
  exact ⟨h.live, h.strays, h.count⟩

/-- Noting a call with an open handle. -/
theorem triple_use (hk : k ∈ L) :
    Triple (Books q L S n) (modify fun l => l.use c (some k) : Script C R PUnit)
      fun _ => Books q L S n :=
  triple_modifyGet.pre fun _ h => h.use hk

/-- A call with an open handle. -/
theorem triple_askOn_books (hk : k ∈ L) (hc : ∀ r, q (c, r) = false) :
    Triple (Books q L S n) (askOn c (some k)) fun _ => Books q L S n :=
  (triple_use hk).bind fun _ => triple_ask_books hc

/-- A new handle is open. -/
theorem triple_acquire :
    Triple (Books q L S n) (acquire : Script C R ℕ) fun k => Books q (k :: L) S n :=
  triple_modifyGet.pre fun l h => ⟨congrArg (l.opened :: ·) h.live, h.strays, h.count⟩

/-- Closing an open handle. -/
theorem triple_release (hk : k ∈ L) :
    Triple (Books q L S n) (release c (some k) : Script C R PUnit) fun _ => Books q (L.erase k) S n :=
  triple_modifyGet.pre fun l h => by
    refine ⟨?_, ?_, ?_⟩
    · simp [h.live]
    · simp [h.note hk, h.strays]
    · simp [h.note hk, h.count]

/-- Closing the handle that was opened last. -/
theorem triple_release_last :
    Triple (Books q (k :: L) S n) (release c (some k) : Script C R PUnit) fun _ => Books q L S n := by
  simpa using triple_release (q := q) (S := S) (n := n) (c := c) (List.mem_cons_self (a := k) (l := L))

/-- Closing no handle. -/
theorem triple_release_none :
    Triple (Books q L S n) (release c none : Script C R PUnit)
      fun _ => Books q L (S ++ [(c, none)]) n :=
  triple_modifyGet.pre fun _ h =>
    ⟨h.live, congrArg (· ++ [(c, none)]) h.strays, h.count⟩

end Books

section Uses

variable {p : C → Bool} {U : List ℕ} {k : ℕ} {c : C} {h : Option ℕ}

/-- Such calls were made with these handles. -/
def Used (p : C → Bool) (U : List ℕ) (l : Ledger C R) : Prop := l.usedBy p = U

/-- Notes about strays are no uses. -/
@[simp] theorem note_uses (c : C) (h : Option ℕ) (l : Ledger C R) : (l.note c h).uses = l.uses := by
  unfold Ledger.note
  split_ifs <;> rfl

/-- A handle is added to those that such calls were made with, if the call is one. -/
theorem use_usedBy (c : C) (k : ℕ) (l : Ledger C R) :
    (l.use c (some k)).usedBy p = l.usedBy p ++ if p c then [k] else [] := by
  rw [Ledger.usedBy, Ledger.use, List.filterMap_append]
  cases hc : p c <;> simp [hc, Ledger.usedBy]

/-- A call without a handle uses none. -/
theorem triple_ask_used : Triple (Used p U) (ask c : Script C R R) fun _ => Used p U :=
  triple_ask.pre fun _ h _ => h

/-- A call with a handle adds it where such calls are looked at. -/
theorem triple_askOn_used :
    Triple (Used p U) (askOn c (some k) : Script C R R)
      fun _ => Used p (U ++ if p c then [k] else []) :=
  (triple_modifyGet (Q := fun _ => Used p (U ++ if p c then [k] else []))).pre (fun l h => by
    obtain rfl : l.usedBy p = U := h
    exact use_usedBy c k l) |>.bind fun _ => triple_ask_used

/-- A new handle is not used yet. -/
theorem triple_acquire_used : Triple (Used p U) (acquire : Script C R ℕ) fun _ => Used p U :=
  triple_modifyGet.pre fun _ h => h

/-- Closing a handle is no use. -/
theorem triple_release_used :
    Triple (Used p U) (release c h : Script C R PUnit) fun _ => Used p U :=
  triple_modifyGet.pre fun l hl => by simpa [Used, Ledger.usedBy] using hl

end Uses

section Latest

variable {φ : C → R → Prop} {P : List (C × R) → Prop} {log : List (C × R)} {n : ℕ} {c : C}
  {h : Option ℕ}

/-- The last call after the first `n` ones is of a kind, with its answer. -/
def Ends (φ : C → R → Prop) (n : ℕ) (log : List (C × R)) : Prop :=
  ∃ e ∈ (log.drop n).getLast?, φ e.1 e.2

/-- It is not. -/
def Quiet (φ : C → R → Prop) (n : ℕ) (log : List (C × R)) : Prop :=
  n ≤ log.length ∧ ∀ e ∈ (log.drop n).getLast?, ¬φ e.1 e.2

/-- The last call cannot be of the kind and not be. -/
theorem Quiet.not_ends (h : Quiet φ n log) : ¬Ends φ n log := fun ⟨e, he, hφ⟩ => h.2 e he hφ

/-- As long as nothing is called there is no last call. -/
theorem quiet_length (log : List (C × R)) : Quiet φ log.length log := by
  simp [Quiet]

/-- A call decides whether the last one is of a kind. -/
theorem triple_ask_last :
    Triple (fun l => Quiet φ n l.log) (ask c) fun r l =>
      (φ c r → Ends φ n l.log) ∧ (¬φ c r → Quiet φ n l.log) := by
  refine triple_ask.pre fun l hl r => ?_
  have hlast : ((l.log ++ [(c, r)]).drop n).getLast? = some (c, r) := by
    simp [List.drop_append_of_le_length hl.1]
  refine ⟨fun hr => ⟨_, hlast, hr⟩, fun hr => ⟨?_, fun e he => ?_⟩⟩
  · rw [List.length_append]
    exact Nat.le_add_right_of_le hl.1
  · obtain rfl := Option.some.inj (hlast.symm.trans he)
    exact hr

/-- Notes about handles are not in the log. -/
@[simp] theorem note_log (c : C) (h : Option ℕ) (l : Ledger C R) : (l.note c h).log = l.log := by
  unfold Ledger.note
  split_ifs <;> rfl

@[simp] theorem use_log (c : C) (h : Option ℕ) (l : Ledger C R) : (l.use c h).log = l.log :=
  note_log c h l

/-- So does a call with a handle. -/
theorem triple_askOn_last :
    Triple (fun l => Quiet φ n l.log) (askOn c h) fun r l =>
      (φ c r → Ends φ n l.log) ∧ (¬φ c r → Quiet φ n l.log) :=
  (triple_modifyGet (Q := fun _ l => Quiet φ n l.log)).pre (fun l hl => by simpa using hl) |>.bind
    fun _ => triple_ask_last

/-- A call of another kind is not of this kind. -/
theorem triple_ask_quiet (hc : ∀ r, ¬φ c r) :
    Triple (fun l => Quiet φ n l.log) (ask c) fun _ l => Quiet φ n l.log :=
  triple_ask_last.post fun r _ hl => hl.2 (hc r)

/-- Nor is one with a handle. -/
theorem triple_askOn_quiet (hc : ∀ r, ¬φ c r) :
    Triple (fun l => Quiet φ n l.log) (askOn c h) fun _ l => Quiet φ n l.log :=
  triple_askOn_last.post fun r _ hl => hl.2 (hc r)

/-- A call that is of the kind whatever the answer is. -/
theorem triple_askOn_ends (hc : ∀ r, φ c r) :
    Triple (fun l => Ends φ n l.log) (askOn c h) fun _ l => Ends φ n l.log := by
  refine (triple_modifyGet (Q := fun _ l => Ends φ n l.log)).pre (fun l hl => by simpa using hl)
    |>.bind fun _ => triple_ask.pre fun l ⟨e, he, _⟩ r => ?_
  have hle : n ≤ l.log.length := by
    by_contra hlt
    rw [List.drop_of_length_le (Nat.le_of_not_le hlt)] at he
    cases he
  exact ⟨(c, r), by simp [List.drop_append_of_le_length hle], hc r⟩

/-- A new handle is not in the log. -/
theorem triple_acquire_log :
    Triple (fun l => P l.log) (acquire : Script C R ℕ) fun _ l => P l.log :=
  triple_modifyGet.pre fun _ h => h

/-- Nor is one that is closed. -/
theorem triple_release_log :
    Triple (fun l => P l.log) (release c h : Script C R PUnit) fun _ l => P l.log :=
  triple_modifyGet.pre fun l hl => by simpa using hl

end Latest

section Within

variable {cs : C → Prop} {p : Script C R α} {c : C} {h : Option ℕ}

/-- A script makes only such calls: what they keep of the log, it keeps. -/
def Within (cs : C → Prop) (p : Script C R α) : Prop :=
  ∀ P : List (C × R) → Prop, (∀ log c r, cs c → P log → P (log ++ [(c, r)])) →
    Triple (fun l => P l.log) p fun _ l => P l.log

/-- No call is made. -/
theorem within_pure (a : α) : Within cs (pure a : Script C R α) :=
  fun _ _ => triple_pure fun _ h => h

/-- Two scripts that make only such calls make them one after the other. -/
theorem Within.bind {f : α → Script C R β} (hp : Within cs p) (hf : ∀ a, Within cs (f a)) :
    Within cs (p >>= f) :=
  fun P hP => (hp P hP).bind fun a => hf a P hP

/-- The call is one of those. -/
theorem within_ask (hc : cs c) : Within cs (ask c : Script C R R) :=
  fun _ hP => triple_ask.pre fun l hl r => hP l.log c r hc hl

/-- So it is with a handle. -/
theorem within_askOn (hc : cs c) : Within cs (askOn c h : Script C R R) :=
  fun P hP => (triple_modifyGet (Q := fun _ l => P l.log)).pre (fun l hl => by simpa using hl) |>.bind
    fun _ => within_ask hc P hP

/-- Opening a handle is no call. -/
theorem within_acquire : Within cs (acquire : Script C R ℕ) := fun _ _ => triple_acquire_log

/-- Nor is closing one. -/
theorem within_release : Within cs (release c h : Script C R PUnit) := fun _ _ => triple_release_log

/-- A loop makes the calls of its body. -/
theorem within_forever {body : Script C R (Option α)} (hbody : Within cs body) :
    Within cs (forever body) :=
  fun P hP => triple_forever ((hbody P hP).post fun o _ hl => by cases o <;> exact hl)

end Within

section Hits

variable {φ : C → R → Prop} {log log' : List (C × R)} {p : Script C R α} {c : C} {h : Option ℕ}

/-- Some call was of a kind, with its answer. -/
def Hit (φ : C → R → Prop) (log : List (C × R)) : Prop := ∃ e ∈ log, φ e.1 e.2

/-- What was hit stays hit. -/
theorem Hit.append (hl : Hit φ log) (log' : List (C × R)) : Hit φ (log ++ log') :=
  hl.imp fun _ he => ⟨List.mem_append_left _ he.1, he.2⟩

/-- A log with one more call is hit before or by it. -/
theorem hit_append_singleton {r : R} : Hit φ (log ++ [(c, r)]) ↔ Hit φ log ∨ φ c r := by
  simp [Hit, or_and_right, exists_or]

/-- What was hit stays so. -/
theorem triple_hit (hp : Within (fun _ => True) p) :
    Triple (fun l => Hit φ l.log) p fun _ l => Hit φ l.log :=
  hp _ fun _ _ _ _ hl => hl.append _

/-- Calls of other kinds do not hit. -/
theorem triple_not_hit (hp : Within (fun c => ∀ r, ¬φ c r) p) :
    Triple (fun l => ¬Hit φ l.log) p fun _ l => ¬Hit φ l.log :=
  hp (fun log => ¬Hit φ log) fun _ _ r hc hl h => (hit_append_singleton.mp h).elim hl (hc r)

/-- Nor do they become the last call that did. -/
theorem triple_quiet {n : ℕ} (hp : Within (fun c => ∀ r, ¬φ c r) p) :
    Triple (fun l => Quiet φ n l.log) p fun _ l => Quiet φ n l.log := by
  refine hp _ fun log c r hc hl => ⟨?_, fun e he => ?_⟩
  · rw [List.length_append]
    exact Nat.le_add_right_of_le hl.1
  · have hlast : ((log ++ [(c, r)]).drop n).getLast? = some (c, r) := by
      simp [List.drop_append_of_le_length hl.1]
    obtain rfl := Option.some.inj (hlast.symm.trans he)
    exact hc r

/-- Whether a call hits, where none did before. -/
theorem triple_askOn_hit :
    Triple (fun l => ¬Hit φ l.log) (askOn c h) fun r l => Hit φ l.log ↔ φ c r :=
  (triple_modifyGet (Q := fun _ l => ¬Hit φ l.log)).pre (fun l hl => by simpa using hl) |>.bind
    fun _ => triple_ask.pre fun l hl r => hit_append_singleton.trans (or_iff_right hl)

/-- A call that hits does so from then on, and is the last one that did. -/
theorem triple_askOn_hits :
    Triple (fun _ => True) (askOn c h) fun r l => φ c r → Hit φ l.log ∧ Ends φ 0 l.log :=
  (triple_modifyGet (Q := fun _ _ => True)).pre (fun _ _ => trivial) |>.bind fun _ =>
    triple_ask.pre fun _ _ r hr => ⟨⟨(c, r), by simp, hr⟩, (c, r), by simp, hr⟩

end Hits

end KernelLib.HandleLedger

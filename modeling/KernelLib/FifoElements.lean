import KernelLib.KfifoRefines
import Mathlib.Data.Nat.Prime.Basic
import Mathlib.Algebra.BigOperators.Ring.List
import Mathlib.Algebra.Order.Ring.Int

/-!
# Elements in a byte fifo

`Fifo<T>` puts the `w` bytes of an element into a `kfifo` and gets them out.
It takes an operation that moved any byte for one that moved the element, so
whether elements stay whole depends on the space that is left: a push that
finds some space, but less than an element, is reported as done. The space
is never so exactly when `w` is a power of two, because the capacity is one.
A count of `2 ^ 31` bytes is negative as an `int`.
-/

namespace KernelLib.FifoElements

open KfifoBytes KfifoRefines Word32 StepRuns

/-- A `Fifo` with what was pushed into it and popped from it. -/
structure State where
  /-- `_kfifo`. -/
  fifo : Option (Kfifo UInt8)
  /-- The values given to the pushes that returned true. -/
  pushed : List (List UInt8)
  /-- The values delivered by the pops that returned true. -/
  popped : List (List UInt8)
  deriving DecidableEq

/-- The operations of a run. -/
inductive Op where
  /-- `push`. -/
  | push (data : List UInt8)
  /-- `pop`, with the argument before. -/
  | pop (data : List UInt8)
  deriving DecidableEq

/-- `len > 0`, after an `unsigned` number was converted to `int`. -/
def positive (n : ℕ) : Bool := decide (0 < (n : ℤ).bmod (2 ^ 32))

/-- `Fifo::push`, for elements of `w` bytes. -/
def push (w : ℕ) (data : List UInt8) : Option (Kfifo UInt8) → Option (Option (Kfifo UInt8) × Bool)
  | none => some (none, false)
  | some fifo => (kfifoPut data w fifo).map fun r => (some r.1, positive r.2)

/-- `Fifo::pop`, with the argument afterwards. -/
def pop (w : ℕ) (data : List UInt8) :
    Option (Kfifo UInt8) → Option (Option (Kfifo UInt8) × List UInt8 × Bool)
  | none => some (none, data, false)
  | some fifo => (kfifoGet data w fifo).map fun r => (some r.1, r.2.1, positive r.2.2)

/-- Keep what a push was given, if it returned true. -/
def afterPush (s : State) (data : List UInt8) (r : Option (Kfifo UInt8) × Bool) : State :=
  ⟨r.1, if r.2 then s.pushed ++ [data] else s.pushed, s.popped⟩

/-- Keep what a pop delivered, if it returned true. -/
def afterPop (s : State) (r : Option (Kfifo UInt8) × List UInt8 × Bool) : State :=
  ⟨r.1, s.pushed, if r.2.2 then s.popped ++ [r.2.1] else s.popped⟩

/-- Perform one operation. -/
def next (w : ℕ) (s : State) : Op → Option State
  | .push data => (push w data s.fifo).map (afterPush s data)
  | .pop data => (pop w data s.fifo).map (afterPop s)

/-- The constructor of `Fifo<T, size>`. -/
def construct (pool : ℕ → Option (List UInt8)) (given : Bool) (w size : ℕ) : Option State :=
  (kfifoAllocFrom pool given (u32 (size * w))).map fun fifo => ⟨fifo, [], []⟩

/-- A block has the size that was asked for. -/
def Sized (pool : ℕ → Option (List UInt8)) : Prop :=
  ∀ n buffer, pool n = some buffer → buffer.length = n

/-- An element has `w` bytes. -/
def Valid (w : ℕ) : Op → Prop
  | .push data | .pop data => data.length = w

instance (w : ℕ) (op : Op) : Decidable (Valid w op) :=
  match op with
  | .push data | .pop data => inferInstanceAs (Decidable (data.length = w))

/-- An operation that returns false leaves the queue and the argument as they are. -/
def FalseKeeps (w : ℕ) (s : State) : Op → Prop
  | .push data => ∀ fifo, push w data s.fifo = some (fifo, false) → fifo = s.fifo
  | .pop data => ∀ fifo data', pop w data s.fifo = some (fifo, data', false) →
    fifo = s.fifo ∧ data' = data

/-- A run delivers the elements in their order and whole, and the operations
that return false change nothing. -/
structure Transfers (w : ℕ) (s : State) (ops : List Op) : Prop where
  delivered : ∃ s', run (next w) s ops = some s' ∧ s'.popped <+: s'.pushed
  keeps : Along (FalseKeeps w) (next w) s ops

/-- The free bytes, for `__kfifo_put`. -/
def freeBytes (fifo : Kfifo UInt8) : ℕ := fifo.size - kfifoLen fifo

/-- A push finds no free byte, or enough of them for an element. -/
def Roomy (w : ℕ) (s : State) : Op → Prop
  | .push _ => ∀ fifo, s.fifo = some fifo → freeBytes fifo = 0 ∨ w ≤ freeBytes fifo ∧ w < 2 ^ 31
  | .pop _ => True

section Queue

variable {w c n : ℕ} {s : State} {fifo : Kfifo UInt8} {q data : List UInt8} {op : Op}

theorem bmod_of_lt (hn : n < 2 ^ 31) : (n : ℤ).bmod (2 ^ 32) = n := by
  rw [Int.bmod_eq_of_le_mul_two] <;> push_cast <;> omega

theorem positive_eq (hn : n < 2 ^ 31) : positive n = decide (0 < n) := by
  unfold positive
  simp only [bmod_of_lt hn, Int.natCast_pos]

/-- `2 ^ 31` bytes count as none. -/
theorem positive_half : positive (2 ^ 31) = false := by
  decide

/-- What is in the byte queue and in the histories after an operation. -/
structure Bytes where
  /-- The queue. -/
  queue : List UInt8
  /-- The values given to the pushes that returned true. -/
  pushed : List (List UInt8)
  /-- The values delivered by the pops that returned true. -/
  popped : List (List UInt8)

/-- No bytes and no history. -/
def Bytes.empty : Bytes := ⟨[], [], []⟩

/-- An operation on the byte queue of a fifo of `c` bytes. -/
def bytesStep (c w : ℕ) (a : Bytes) : Op → Bytes
  | .push data =>
    let n := min w (c - a.queue.length)
    ⟨a.queue ++ data.take n, if positive n then a.pushed ++ [data] else a.pushed, a.popped⟩
  | .pop data =>
    let n := min w a.queue.length
    ⟨a.queue.drop n, a.pushed,
      if positive n then a.popped ++ [a.queue.take n ++ data.drop n] else a.popped⟩

/-- The bytes after a run. -/
def bytesAfter (c w : ℕ) (a : Bytes) (ops : List Op) : Bytes := ops.foldl (bytesStep c w) a

/-- What a push does that finds room for `n` bytes. -/
theorem bytesStep_push {a : Bytes} {data : List UInt8} (hn : min w (c - a.queue.length) = n) :
    bytesStep c w a (.push data) =
      ⟨a.queue ++ data.take n, if positive n then a.pushed ++ [data] else a.pushed, a.popped⟩ := by
  rw [bytesStep, hn]

/-- What a pop does that finds `n` bytes. -/
theorem bytesStep_pop {a : Bytes} {data : List UInt8} (hn : min w a.queue.length = n) :
    bytesStep c w a (.pop data) = ⟨a.queue.drop n, a.pushed,
      if positive n then a.popped ++ [a.queue.take n ++ data.drop n] else a.popped⟩ := by
  rw [bytesStep, hn]

/-- The fifo holds the bytes, and the histories agree. -/
structure Represents (c : ℕ) (s : State) (a : Bytes) : Prop where
  fifo : ∃ fifo, s.fifo = some fifo ∧ fifo.size = c ∧ Holds fifo a.queue
  pushed : s.pushed = a.pushed
  popped : s.popped = a.popped

variable {a : Bytes}

theorem push_spec (hc : fifo.size = c) (h : Holds fifo q) (hw : w < 2 ^ 32)
    (hd : data.length = w) :
    ∃ fifo', push w data (some fifo) = some (some fifo', positive (min w (c - q.length))) ∧
      fifo'.size = c ∧ Holds fifo' (q ++ data.take (min w (c - q.length))) := by
  obtain ⟨fifo', hp, hsize, hh⟩ := put_spec h hw hd.ge
  rw [hc] at hp hsize hh
  exact ⟨fifo', by rw [push, hp]; rfl, hsize, hh⟩

theorem pop_spec (hc : fifo.size = c) (h : Holds fifo q) (hw : w < 2 ^ 32)
    (hd : data.length = w) :
    ∃ fifo', pop w data (some fifo) = some (some fifo',
        q.take (min w q.length) ++ data.drop (min w q.length), positive (min w q.length)) ∧
      fifo'.size = c ∧ Holds fifo' (q.drop (min w q.length)) := by
  obtain ⟨fifo', hp, hsize, hh⟩ := get_spec h hw hd.ge
  exact ⟨fifo', by rw [pop, hp]; rfl, hsize.trans hc, hh⟩

/-- A push that finds no room changes nothing. -/
theorem push_keeps (hf : s.fifo = some fifo) (hc : fifo.size = c) (h : Holds fifo q)
    (hw : w < 2 ^ 32) (hd : data.length = w)
    (hn : min w (c - q.length) = 0 ∨ positive (min w (c - q.length)) = true) :
    FalseKeeps w s (.push data) := by
  intro fifo' hp
  rw [hf] at hp ⊢
  rcases hn with hzero | htrue
  · rw [← hc] at hzero
    rw [push, put_nothing h hzero] at hp
    exact (congrArg Prod.fst (Option.some.inj hp)).symm
  · obtain ⟨fifo₁, hp₁, -⟩ := push_spec hc h hw hd
    rw [hp₁, htrue] at hp
    cases hp

/-- A pop that finds no byte changes nothing. -/
theorem pop_keeps (hf : s.fifo = some fifo) (hc : fifo.size = c) (h : Holds fifo q)
    (hw : w < 2 ^ 32) (hd : data.length = w)
    (hn : min w q.length = 0 ∨ positive (min w q.length) = true) :
    FalseKeeps w s (.pop data) := by
  intro fifo' data' hp
  rw [hf] at hp ⊢
  rcases hn with hzero | htrue
  · rw [pop, get_nothing h hzero] at hp
    have hr := Option.some.inj hp
    exact ⟨(congrArg Prod.fst hr).symm, (congrArg (fun r => r.2.1) hr).symm⟩
  · obtain ⟨fifo₁, hp₁, -⟩ := pop_spec hc h hw hd
    rw [hp₁, htrue] at hp
    cases hp

/-- Every operation moves the bytes that the queue says. -/
theorem next_represents (hr : Represents c s a) (hw : w < 2 ^ 32) (hop : Valid w op) :
    ∃ s', next w s op = some s' ∧ Represents c s' (bytesStep c w a op) := by
  obtain ⟨fifo, hf, hc, hh⟩ := hr.fifo
  cases op with
  | push data =>
    obtain ⟨fifo', hp, hsize, hh'⟩ := push_spec hc hh hw hop
    rw [← hf] at hp
    refine ⟨afterPush s data (some fifo', positive (min w (c - a.queue.length))),
      by rw [next, hp]; rfl, ⟨fifo', rfl, hsize, hh'⟩, ?_, hr.popped⟩
    simp only [afterPush, bytesStep, hr.pushed]
  | pop data =>
    obtain ⟨fifo', hp, hsize, hh'⟩ := pop_spec hc hh hw hop
    rw [← hf] at hp
    refine ⟨afterPop s (some fifo', a.queue.take (min w a.queue.length) ++
      data.drop (min w a.queue.length), positive (min w a.queue.length)),
      by rw [next, hp]; rfl, ⟨fifo', rfl, hsize, hh'⟩, hr.pushed, ?_⟩
    simp only [afterPop, bytesStep, hr.popped]

theorem run_represents {ops : List Op} (hr : Represents c s a) (hw : w < 2 ^ 32)
    (hops : ∀ op ∈ ops, Valid w op) :
    ∃ s', run (next w) s ops = some s' ∧ Represents c s' (bytesAfter c w a ops) := by
  exact exists_run_simulating (R := Represents c) (f := bytesStep c w)
    (fun _ _ _ hr hop => next_represents hr hw hop) hr (along_of_forall hops)

end Queue

section Whole

variable {w c n : ℕ} {s : State} {a : Bytes} {op : Op} {rest : List (List UInt8)}

/-- The queue consists of the elements that were pushed and not yet popped. -/
def Whole (w : ℕ) (a : Bytes) : Prop :=
  ∃ rest, a.pushed = a.popped ++ rest ∧ a.queue = rest.flatten ∧
    ∀ d ∈ rest, d.length = w ∧ w < 2 ^ 31

theorem whole_empty : Whole w Bytes.empty := ⟨[], rfl, rfl, by simp⟩

theorem Whole.prefix (h : Whole w a) : a.popped <+: a.pushed := by
  obtain ⟨rest, hp, -⟩ := h
  exact ⟨rest, hp.symm⟩

/-- Whole elements fill a multiple of their size. -/
theorem Whole.dvd (h : Whole w a) : w ∣ a.queue.length := by
  obtain ⟨rest, -, hq, hlen⟩ := h
  rw [hq, List.length_flatten]
  refine List.dvd_sum fun n hn => ?_
  obtain ⟨d, hd, rfl⟩ := List.mem_map.mp hn
  rw [(hlen d hd).1]

/-- A queue of whole elements that is not empty has one to take. -/
theorem min_flatten_cons {d : List UInt8} (hd : d.length = w) :
    min w (d :: rest).flatten.length = w := by
  rw [List.flatten_cons, List.length_append, hd]
  omega

/-- A pop moves no byte or an element. -/
theorem Whole.popLen (h : Whole w a) :
    min w a.queue.length = 0 ∨ min w a.queue.length = w ∧ w < 2 ^ 31 := by
  obtain ⟨rest, -, hq, hlen⟩ := h
  cases rest with
  | nil => exact Or.inl (by rw [hq]; exact Nat.min_zero w)
  | cons d rest =>
    obtain ⟨hd, hw⟩ := hlen d List.mem_cons_self
    exact Or.inr ⟨hq ▸ min_flatten_cons hd, hw⟩

/-- A push with enough room appends its element. -/
theorem Whole.push (h : Whole w a) (hpos : 0 < w) (data : List UInt8) (hd : data.length = w)
    (hroom : c - a.queue.length = 0 ∨ w ≤ c - a.queue.length ∧ w < 2 ^ 31) :
    Whole w (bytesStep c w a (.push data)) := by
  obtain ⟨rest, hp, hq, hlen⟩ := h
  rcases hroom with hfull | ⟨hfree, hw⟩
  · have hn : min w (c - a.queue.length) = 0 := by rw [hfull, Nat.min_zero]
    rw [bytesStep_push hn, positive_eq (Nat.two_pow_pos 31)]
    exact ⟨rest, by simpa using hp, by simpa using hq, hlen⟩
  · have hn : min w (c - a.queue.length) = w := Nat.min_eq_left hfree
    rw [bytesStep_push hn, positive_eq hw, List.take_of_length_le hd.le]
    refine ⟨rest ++ [data], by simp [hpos, hp], by simp [hq], fun e he => ?_⟩
    rcases List.mem_append.mp he with hold | hnew
    · exact hlen e hold
    · exact ⟨List.mem_singleton.mp hnew ▸ hd, hw⟩

/-- A pop takes the oldest element, or finds the queue empty. -/
theorem Whole.pop (h : Whole w a) (hpos : 0 < w) (data : List UInt8) (hd : data.length = w) :
    Whole w (bytesStep c w a (.pop data)) := by
  obtain ⟨rest, hp, hq, hlen⟩ := h
  cases rest with
  | nil =>
    have hn : min w a.queue.length = 0 := by
      rw [hq]
      exact Nat.min_zero w
    rw [bytesStep_pop hn, positive_eq (Nat.two_pow_pos 31)]
    exact ⟨[], by simpa using hp, by simpa using hq, by simp⟩
  | cons d rest =>
    obtain ⟨hdw, hw⟩ := hlen d List.mem_cons_self
    have hn : min w a.queue.length = w := hq ▸ min_flatten_cons hdw
    rw [bytesStep_pop hn, positive_eq hw, hq, List.flatten_cons, List.take_left' hdw,
      List.drop_left' hdw, List.drop_of_length_le hd.le]
    exact ⟨rest, by simp [hpos, hp], rfl, fun e he => hlen e (List.mem_cons_of_mem d he)⟩

end Whole

section Runs

variable {w c : ℕ} {s : State} {a : Bytes} {op : Op} {ops : List Op}

/-- A fifo that was not allocated, or one with whole elements. -/
inductive Sound (c w : ℕ) (s : State) : Prop where
  /-- Nothing was allocated, so nothing was pushed. -/
  | null (fifo : s.fifo = none) (popped : s.popped <+: s.pushed)
  /-- The queue consists of whole elements. -/
  | whole (a : Bytes) (represents : Represents c s a) (whole : Whole w a)

theorem Sound.prefix (h : Sound c w s) : s.popped <+: s.pushed := by
  cases h with
  | null _ hp => exact hp
  | whole a hr hwhole => exact hr.popped ▸ hr.pushed ▸ hwhole.prefix

/-- The capacity is a power of two, enough for an element. -/
theorem construct_eq {size : ℕ} (hpos : 0 < w) (hs : 0 < size) (hm : size * w ≤ 2 ^ 31) :
    ∃ c, PowerSize c ∧ w ≤ c ∧ ∀ pool given, construct pool given w size =
      some ⟨(pool c).bind fun buffer => if given then some (kfifoAlloc buffer) else none, [], []⟩ := by
  obtain ⟨c, hc, hpow, hle⟩ := allocSize_spec (Nat.mul_pos hs hpos) hm
  have hu : u32 (size * w) = size * w := u32_of_lt (by omega)
  refine ⟨c, hpow, (Nat.le_mul_of_pos_left w hs).trans hle, fun pool given => ?_⟩
  rw [construct, kfifoAllocFrom, hu, hc]
  rfl

theorem represents_alloc {buffer : List UInt8} (hpow : PowerSize c) (hlen : buffer.length = c) :
    Represents c ⟨some (kfifoAlloc buffer), [], []⟩ Bytes.empty :=
  ⟨⟨_, rfl, hlen, holds_alloc (hlen ▸ hpow)⟩, rfl, rfl⟩

/-- A new `Fifo` is sound, whatever the pool returns. -/
theorem sound_alloc {pool : ℕ → Option (List UInt8)} (hp : Sized pool) (given : Bool)
    (hpow : PowerSize c) :
    Sound c w ⟨(pool c).bind fun buffer => if given then some (kfifoAlloc buffer) else none, [], []⟩ := by
  cases hb : pool c with
  | none => exact .null rfl List.prefix_rfl
  | some buffer =>
    cases given with
    | false => exact .null rfl List.prefix_rfl
    | true => exact .whole Bytes.empty (represents_alloc hpow (hp c buffer hb)) whole_empty

/-- Where a push finds enough room or none, an operation keeps the elements
whole, and changes nothing if it returns false. -/
theorem next_sound (h : Sound c w s) (hpos : 0 < w) (hw : w < 2 ^ 32) (hop : Valid w op)
    (hroom : Roomy w s op) :
    ∃ s', next w s op = some s' ∧ Sound c w s' ∧ FalseKeeps w s op := by
  cases h with
  | null hf hp =>
    cases op with
    | push data =>
      refine ⟨⟨none, s.pushed, s.popped⟩, by rw [next, hf]; rfl, .null rfl hp, fun fifo' hr => ?_⟩
      rw [hf] at hr ⊢
      exact (congrArg Prod.fst (Option.some.inj hr)).symm
    | pop data =>
      refine ⟨⟨none, s.pushed, s.popped⟩, by rw [next, hf]; rfl, .null rfl hp,
        fun fifo' data' hr => ?_⟩
      rw [hf] at hr ⊢
      cases hr
      exact ⟨rfl, rfl⟩
  | whole a hr hwhole =>
    obtain ⟨s', hs', hr'⟩ := next_represents hr hw hop
    obtain ⟨fifo, hf, hc, hh⟩ := hr.fifo
    cases op with
    | push data =>
      have hfree : c - a.queue.length = 0 ∨ w ≤ c - a.queue.length ∧ w < 2 ^ 31 := by
        have hfifo := hroom fifo hf
        rwa [freeBytes, kfifoLen, hh.length, hc] at hfifo
      refine ⟨s', hs', .whole _ hr' (hwhole.push hpos data hop hfree),
        push_keeps hf hc hh hw hop ?_⟩
      rcases hfree with hfull | ⟨hle, hlt⟩
      · exact Or.inl (by rw [hfull, Nat.min_zero])
      · rw [Nat.min_eq_left hle, positive_eq hlt]
        exact Or.inr (decide_eq_true hpos)
    | pop data =>
      refine ⟨s', hs', .whole _ hr' (hwhole.pop hpos data hop), pop_keeps hf hc hh hw hop ?_⟩
      rcases hwhole.popLen with hzero | ⟨hn, hlt⟩
      · exact Or.inl hzero
      · rw [hn, positive_eq hlt]
        exact Or.inr (decide_eq_true hpos)

/-- In every run in which each push finds enough room or none, the elements
are transferred. -/
theorem transfers_of_roomy (h : Sound c w s) (hpos : 0 < w) (hw : w < 2 ^ 32)
    (hops : ∀ op ∈ ops, Valid w op) (hroom : Along (Roomy w) (next w) s ops) :
    Transfers w s ops := by
  have hguard := along_and.mpr ⟨along_of_forall hops, hroom⟩
  constructor
  · obtain ⟨s', hs', h'⟩ := exists_run (I := Sound c w) (fun s op h hop => by
      obtain ⟨t, ht, hsound, -⟩ := next_sound h hpos hw hop.1 hop.2
      exact ⟨t, ht, hsound⟩) h hguard
    exact ⟨s', hs', h'.prefix⟩
  · refine along_of_invariant (I := Sound c w) (fun s op h hop => ?_) h hguard
    obtain ⟨t, ht, hsound, hkeeps⟩ := next_sound h hpos hw hop.1 hop.2
    refine ⟨hkeeps, fun u hu => ?_⟩
    rw [ht] at hu
    exact Option.some.inj hu ▸ hsound

/-- Elements whose size divides the capacity leave room for whole elements. -/
theorem roomy_of_dvd (h : Sound c w s) (hdvd : w ∣ c) (hlt : w < 2 ^ 31) : Roomy w s op := by
  cases op with
  | pop data => trivial
  | push data =>
    intro fifo hf
    cases h with
    | null hnone _ => rw [hnone] at hf; cases hf
    | whole a hr hwhole =>
      obtain ⟨fifo', hf', hc, hh⟩ := hr.fifo
      obtain rfl : fifo' = fifo := Option.some.inj (hf'.symm.trans hf)
      have hfree : w ∣ freeBytes fifo' := by
        rw [freeBytes, kfifoLen, hh.length, hc]
        exact Nat.dvd_sub hdvd hwhole.dvd
      rcases Nat.eq_zero_or_pos (freeBytes fifo') with hzero | hsome
      · exact Or.inl hzero
      · exact Or.inr ⟨Nat.le_of_dvd hsome hfree, hlt⟩

/-- Then every push of every run finds enough room or none. -/
theorem along_roomy (h : Sound c w s) (hdvd : w ∣ c) (hpos : 0 < w) (hlt : w < 2 ^ 31)
    (hops : ∀ op ∈ ops, Valid w op) : Along (Roomy w) (next w) s ops := by
  refine along_of_invariant (I := Sound c w) (fun s op h hop => ?_) h (along_of_forall hops)
  have hroom : Roomy w s op := roomy_of_dvd h hdvd hlt
  obtain ⟨t, ht, hsound, -⟩ := next_sound h hpos (by omega) hop hroom
  refine ⟨hroom, fun u hu => ?_⟩
  rw [ht] at hu
  exact Option.some.inj hu ▸ hsound

end Runs

section Broken

variable {w c : ℕ} {s : State}

/-- An element of zeros. -/
def zeros (w : ℕ) : List UInt8 := List.replicate w 0

/-- What a pop is given to put an element in. -/
def ones (w : ℕ) : List UInt8 := List.replicate w 1

/-- Fill the queue with one push too many, and pop as often. -/
def overfull (m w : ℕ) : List Op :=
  List.replicate (m + 1) (.push (zeros w)) ++ List.replicate (m + 1) (.pop (ones w))

theorem overfull_valid {m : ℕ} : ∀ op ∈ overfull m w, Valid w op := by
  intro op hop
  rcases List.mem_append.mp hop with hpush | hpop
  · rw [List.eq_of_mem_replicate hpush]
    exact List.length_replicate
  · rw [List.eq_of_mem_replicate hpop]
    exact List.length_replicate

/-- Pushes that find enough room. -/
theorem bytesAfter_pushes {j : ℕ} (hpos : 0 < w) (hlt : w < 2 ^ 31) (hj : j * w ≤ c) :
    bytesAfter c w Bytes.empty (List.replicate j (.push (zeros w))) =
      ⟨List.replicate (j * w) 0, List.replicate j (zeros w), []⟩ := by
  induction j with
  | zero => simp [bytesAfter, Bytes.empty]
  | succ j ih =>
    rw [Nat.succ_mul] at hj
    have hprev := ih (by omega)
    rw [bytesAfter] at hprev ⊢
    rw [List.replicate_succ', List.foldl_append, hprev, List.foldl_cons, List.foldl_nil,
      bytesStep_push (n := w) (by rw [List.length_replicate]; omega), positive_eq hlt]
    simp [hpos, zeros, List.replicate_succ', Nat.succ_mul]

/-- Pops that find an element. -/
theorem bytesAfter_pops {j : ℕ} {p : List (List UInt8)} (hpos : 0 < w) (hlt : w < 2 ^ 31)
    (hj : j * w ≤ c) :
    bytesAfter c w ⟨List.replicate c 0, p, []⟩ (List.replicate j (.pop (ones w))) =
      ⟨List.replicate (c - j * w) 0, p, List.replicate j (zeros w)⟩ := by
  induction j with
  | zero => simp [bytesAfter]
  | succ j ih =>
    rw [Nat.succ_mul] at hj
    have hprev := ih (by omega)
    rw [bytesAfter] at hprev ⊢
    rw [List.replicate_succ', List.foldl_append, hprev, List.foldl_cons, List.foldl_nil,
      bytesStep_pop (n := w) (by rw [List.length_replicate]; omega), positive_eq hlt]
    have hle : w ≤ c - j * w := by omega
    simp [hpos, zeros, ones, List.replicate_succ', Nat.succ_mul, Nat.sub_sub, List.take_replicate,
      Nat.min_eq_left hle]

/-- Then the last pop gets the bytes that were left, and keeps its argument for the others. -/
theorem bytesAfter_overfull (hpos : 0 < w) (hlt : w < 2 ^ 31) (hdvd : c % w ≠ 0) :
    bytesAfter c w Bytes.empty (overfull (c / w) w) =
      ⟨[], List.replicate (c / w + 1) (zeros w), List.replicate (c / w) (zeros w) ++
        [List.replicate (c % w) 0 ++ List.replicate (w - c % w) 1]⟩ := by
  have hc : c / w * w + c % w = c := Nat.div_add_mod' c w
  have hr : c % w < w := Nat.mod_lt c hpos
  have hfill := bytesAfter_pushes hpos hlt (show c / w * w ≤ c by omega)
  have hdrain := bytesAfter_pops (p := List.replicate (c / w + 1) (zeros w)) hpos hlt
    (show c / w * w ≤ c by omega)
  have hleft : c - c / w * w = c % w := by omega
  have hlast : List.replicate (c / w * w) 0 ++ (zeros w).take (c % w) = List.replicate c 0 := by
    rw [zeros, List.take_replicate, Nat.min_eq_left hr.le, List.replicate_append_replicate, hc]
  rw [bytesAfter] at hfill hdrain ⊢
  rw [overfull, List.foldl_append, List.replicate_succ', List.foldl_append, hfill, List.foldl_cons,
    List.foldl_nil, bytesStep_push (n := c % w) (by rw [List.length_replicate]; omega), hlast,
    positive_eq (hr.trans hlt), decide_eq_true (Nat.pos_of_ne_zero hdvd), if_pos rfl,
    List.replicate_succ', List.foldl_append, ← List.replicate_succ', hdrain, hleft,
    List.foldl_cons, List.foldl_nil,
    bytesStep_pop (n := c % w) (by rw [List.length_replicate]; omega),
    positive_eq (hr.trans hlt), decide_eq_true (Nat.pos_of_ne_zero hdvd), if_pos rfl]
  simp [ones]

/-- A size that does not divide the capacity breaks the last element. -/
theorem not_transfers_overfull (hr : Represents c s Bytes.empty) (hpos : 0 < w)
    (hlt : w < 2 ^ 31) (hdvd : c % w ≠ 0) : ¬Transfers w s (overfull (c / w) w) := by
  rintro ⟨⟨s', hs', hp⟩, -⟩
  have hw : w < 2 ^ 32 := by omega
  obtain ⟨s₁, hs₁, hr₁⟩ := run_represents hr hw (overfull_valid (m := c / w))
  obtain rfl : s₁ = s' := Option.some.inj (hs₁.symm.trans hs')
  rw [hr₁.popped, hr₁.pushed, bytesAfter_overfull hpos hlt hdvd] at hp
  have hmem := List.eq_of_mem_replicate (hp.subset (List.mem_append_right _ List.mem_cons_self))
  have hone : (1 : UInt8) ∈ zeros w := by
    rw [← hmem]
    refine List.mem_append_right _ (List.mem_replicate.mpr ⟨?_, rfl⟩)
    exact Nat.sub_ne_zero_of_lt (Nat.mod_lt c hpos)
  exact absurd (List.eq_of_mem_replicate hone) (by decide)

/-- An element of `2 ^ 31` bytes is put in and reported as refused. -/
theorem not_transfers_half (hr : Represents c s Bytes.empty) (hw : w = 2 ^ 31) (hc : w ≤ c) :
    ¬Transfers w s [.push (zeros w)] := by
  rintro ⟨-, hkeeps, -⟩
  have hlt : w < 2 ^ 32 := by omega
  obtain ⟨fifo, hf, hsize, hh⟩ := hr.fifo
  have hzeros : (zeros w).length = w := List.length_replicate
  obtain ⟨fifo', hp, -, hh'⟩ := push_spec hsize hh hlt hzeros
  have hn : min w (c - Bytes.empty.queue.length) = w := Nat.min_eq_left hc
  have hfalse : positive w = false := hw ▸ positive_half
  rw [hn, hfalse, ← hf] at hp
  obtain rfl : fifo' = fifo := Option.some.inj ((hkeeps _ hp).trans hf)
  have hlen : ((zeros w).take w).length = 0 := by
    have hboth := hh'.length.symm.trans hh.length
    rwa [hn] at hboth
  rw [zeros, List.take_replicate, Nat.min_self, List.length_replicate] at hlen
  omega

end Broken

section Transfer

variable {w size : ℕ}

/-- A pool that always has memory. -/
def plenty (n : ℕ) : Option (List UInt8) := some (List.replicate n 0)

theorem plenty_sized : Sized plenty := by
  rintro n _ ⟨⟩
  exact List.length_replicate

/-- The elements of every run over a `Fifo` are transferred exactly when their
size is a power of two up to `2 ^ 30`. Those of one run are, for every size,
if each push finds enough free bytes or none. -/
theorem elements_transferred_iff (hw : 0 < w) (hs : 0 < size) (hm : size * w ≤ 2 ^ 31) :
    ((∀ pool given, Sized pool → ∃ s, construct pool given w size = some s ∧
      ∀ ops, (∀ op ∈ ops, Valid w op) → Transfers w s ops) ↔ ∃ k, k ≤ 30 ∧ w = 2 ^ k) ∧
    ∀ pool given, Sized pool → ∃ s, construct pool given w size = some s ∧
      ∀ ops, (∀ op ∈ ops, Valid w op) → Along (Roomy w) (next w) s ops → Transfers w s ops := by
  obtain ⟨c, hpow, hwc, hnew⟩ := construct_eq hw hs hm
  obtain ⟨j, hj, hc⟩ := id hpow
  have hlt : w < 2 ^ 32 := hwc.trans_lt hpow.lt
  have hhigh : c ≤ 2 ^ 31 := hc ▸ Nat.pow_le_pow_right two_pos hj
  refine ⟨⟨fun hall => ?_, ?_⟩, fun pool given hp => ⟨_, hnew pool given, fun ops hops hroom =>
    transfers_of_roomy (sound_alloc hp given hpow) hw hlt hops hroom⟩⟩
  · obtain ⟨s, hs', hall⟩ := hall plenty true plenty_sized
    obtain rfl := Option.some.inj ((hnew plenty true).symm.trans hs')
    have hlen : (List.replicate c (0 : UInt8)).length = c := List.length_replicate
    have hr := represents_alloc hpow hlen
    by_cases hhalf : w = 2 ^ 31
    · exact absurd (hall _ (by simp [Valid, zeros])) (not_transfers_half hr hhalf hwc)
    · by_cases hdvd : c % w = 0
      · obtain ⟨k, hk, hwk⟩ := (Nat.dvd_prime_pow Nat.prime_two).mp (hc ▸ Nat.dvd_of_mod_eq_zero hdvd)
        refine ⟨k, ?_, hwk⟩
        by_contra hlarge
        exact hhalf (hwk.trans (by rw [show k = 31 by omega]))
      · exact absurd (hall _ overfull_valid)
          (not_transfers_overfull hr hw (by omega) hdvd)
  · rintro ⟨k, hk, rfl⟩ pool given hp
    have hsound : Sound c (2 ^ k) _ := sound_alloc hp given hpow
    have hdvd : 2 ^ k ∣ c :=
      hc ▸ Nat.pow_dvd_pow 2 ((Nat.pow_le_pow_iff_right one_lt_two).mp (hc ▸ hwc))
    have hsmall : 2 ^ k < 2 ^ 31 := Nat.pow_lt_pow_right one_lt_two (by omega)
    exact ⟨_, hnew pool given, fun ops hops =>
      transfers_of_roomy hsound hw hlt hops (along_roomy hsound hdvd hw hsmall hops)⟩

/-- `Fifo<int>`. -/
theorem elements_transferred_ints : ∃ s, construct plenty true 4 10 = some s ∧
    ∀ ops, (∀ op ∈ ops, Valid 4 op) → Transfers 4 s ops :=
  (elements_transferred_iff (by decide) (by decide) (by decide)).1.mpr ⟨2, by decide, rfl⟩ plenty
    true plenty_sized

/-- The second element finds one byte of space. -/
def threeBytes : List Op :=
  [.push [1, 2, 3], .push [4, 5, 6], .pop [0, 0, 0], .pop [0, 0, 0]]

theorem not_transferred_threeBytes : ¬∃ s, construct plenty true 3 1 = some s ∧
    ∀ ops, (∀ op ∈ ops, Valid 3 op) → Transfers 3 s ops := by
  rintro ⟨s, hs, hall⟩
  have hnew : construct plenty true 3 1 = some ⟨some (kfifoAlloc [0, 0, 0, 0]), [], []⟩ := by
    simp [construct, kfifoAllocFrom, allocSize, roundupPowOfTwo, highestBit, highestBitLoop, u32,
      sub32, plenty]
  obtain rfl := Option.some.inj (hnew.symm.trans hs)
  obtain ⟨⟨s', hs', hp⟩, -⟩ := hall threeBytes (by decide)
  have hrun : (run (next 3) ⟨some (kfifoAlloc [0, 0, 0, 0]), [], []⟩ threeBytes).map
      (fun s => (s.pushed, s.popped)) = some ([[1, 2, 3], [4, 5, 6]], [[1, 2, 3], [4, 0, 0]]) := by
    decide
  rw [hs'] at hrun
  obtain ⟨hpushed, hpopped⟩ := Prod.mk.inj (Option.some.inj hrun)
  rw [hpushed, hpopped] at hp
  exact absurd hp (by decide)

end Transfer

end KernelLib.FifoElements

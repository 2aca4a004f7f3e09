import Mathlib.Data.List.Pairwise
import KernelLib.StepRuns

/-!
# Messages between services

A client hands a message to the service that runs the message loop by
starting another service with the message in its arguments: that one reads
the thread of the worker out of the shared section, posts the message there
and stops. `PostMessageBySrv`, `beforeRunning`, `PostMessageToWorkingThread`
and the loop of `execute` are steps that any order may interleave, and the
worker may quit or be killed at any time. The section lives as long as a
process has its library loaded. The worker does to the shared value what the
messages say one after the other, in the order in which the clients sent them
and each of them once; while it listens, it gets all of them.
-/

namespace KernelLib.ServiceMessages

open StepRuns

/-- The messages the loop knows. -/
def WM_QUIT : BitVec 32 := 0x0012

def WM_TIMER : BitVec 32 := 0x0113

def UM_TSRV_PRINT_PARAM : BitVec 32 := 0x0402

def UM_TSRV_SETVALUE_PARAM : BitVec 32 := 0x0403

/-- `MSG`, with a `WPARAM` of `w` bits, and the start of a service it comes from. -/
structure Msg (w : ℕ) where
  /-- The message. -/
  message : BitVec 32
  /-- Its parameter. -/
  wParam : BitVec w
  /-- Which start of the posting service it comes from, if any. -/
  call : Option ℕ
  deriving DecidableEq, Repr

/-- A line of the loop's debug output. -/
inductive Line (w : ℕ) where
  /-- That the test timer went off. -/
  | timer
  /-- `getValue()`. -/
  | value (v : BitVec 32)
  /-- `msg.wParam`. -/
  | param (wp : BitVec w)
  deriving DecidableEq, Repr

/-- The service that posts a message, with its arguments. -/
structure Poster where
  /-- Which start this is. -/
  call : ℕ
  /-- `--msg_id`. -/
  msgId : BitVec 64
  /-- `--msg_param`. -/
  msgParam : BitVec 64
  /-- `otid`, once it was read. -/
  otid : Option (BitVec 32)
  deriving DecidableEq, Repr

/-- Where the worker is. -/
inductive WorkerPc (w : ℕ) where
  /-- In front of `STSetTID`. -/
  | starting
  /-- In front of `SetTimer` and of `PeekMessage`, which creates the queue. -/
  | tidSet
  /-- At `GetMessage`, with the messages in the queue. -/
  | looping (queue : List (Msg w))
  deriving DecidableEq, Repr

/-- The service that runs the loop. -/
structure Worker (w : ℕ) where
  /-- `GetCurrentThreadId()`. -/
  tid : BitVec 32
  /-- `testTimerId`, which `SetTimer` returns. -/
  testTimerId : BitVec w
  /-- Where it is. -/
  pc : WorkerPc w
  deriving DecidableEq, Repr

/-- What happens to the shared value. -/
inductive Event (w : ℕ) where
  /-- A worker with this test timer dispatches a message. -/
  | dispatch (testTimerId : BitVec w) (m : Msg w)
  /-- The last process with the library ends, and the section with it. -/
  | unload
  deriving DecidableEq, Repr

/-- The message of an event. -/
def Event.msg {w : ℕ} : Event w → Option (Msg w)
  | .dispatch _ m => some m
  | .unload => none

/-- The shared section, the two services, and what happened so far. -/
structure Sys (w : ℕ) where
  /-- `gValue`. -/
  gValue : BitVec 32
  /-- `gTID`. -/
  gTID : BitVec 32
  /-- The posting service, while it runs. -/
  poster : Option Poster
  /-- The worker, while it runs. -/
  worker : Option (Worker w)
  /-- How many other processes have the library loaded. -/
  clients : ℕ
  /-- The debug output of the worker's loop. -/
  printed : List (Line w)
  /-- The arguments of each start of the posting service. -/
  started : List (BitVec 64 × BitVec 64)
  /-- What was dispatched, and when the section ended. -/
  log : List (Event w)
  deriving DecidableEq

/-- A step of the system. -/
inductive Act (w : ℕ) where
  /-- `StartService` on the posting service. -/
  | start (msgId msgParam : BitVec 64)
  /-- The posting service takes its next step. -/
  | poster
  /-- `StartService` on the worker, which runs in this thread and gets this timer. -/
  | startWorker (tid : BitVec 32) (testTimerId : BitVec w)
  /-- The worker takes its next step. -/
  | worker
  /-- Somebody else posts a message to the worker, or a timer does. -/
  | post (message : BitVec 32) (wParam : BitVec w)
  /-- Another process loads the library. -/
  | load
  /-- Another process ends that had loaded it. -/
  | unload
  /-- The posting service is killed. -/
  | killPoster
  /-- The worker is killed. -/
  | killWorker
  deriving DecidableEq, Repr

variable {w : ℕ}

/-- `PostMessageBySrv`: the message and its parameter as command line numbers. -/
def postMessageBySrv (msg : BitVec 32) (wp : BitVec w) : Act w :=
  .start (msg.setWidth 64) (wp.setWidth 64)

/-- Nothing runs, and the section is as it was loaded. -/
def Sys.init : Sys w := ⟨0, 0, none, none, 0, [], [], []⟩

/-- A process has ended: without one that has loaded the library the section is gone, and
the next one finds it as it is in the file. -/
def Sys.ended (s : Sys w) : Sys w :=
  if s.poster.isNone ∧ s.worker.isNone ∧ s.clients = 0 then
    { s with gValue := 0, gTID := 0, log := s.log ++ [.unload] }
  else s

/-- `PostThreadMessage`, to a queue of at most `limit` messages. -/
def Sys.postThreadMessage (limit : ℕ) (tid : BitVec 32) (m : Msg w) (s : Sys w) : Sys w :=
  match s.worker with
  | some ⟨t, timer, .looping queue⟩ =>
    if t = tid ∧ queue.length < limit then
      { s with worker := some ⟨t, timer, .looping (queue ++ [m])⟩ }
    else s
  | _ => s

/-- `PostMessageToWorkingThread`, once it has the thread. -/
def Sys.postMessageToWorkingThread (limit : ℕ) (otid : BitVec 32) (m : Msg w) (s : Sys w) : Sys w :=
  if otid < 5 then s else s.postThreadMessage limit otid m

/-- The message that the posting service makes of its arguments. -/
def Poster.msg (p : Poster) : Msg w := ⟨p.msgId.setWidth 32, p.msgParam.setWidth w, some p.call⟩

/-- `beforeRunning` of the posting service, which stops in the end. -/
def Sys.stepPoster (limit : ℕ) (p : Poster) (s : Sys w) : Sys w :=
  match p.otid with
  | none =>
    if (0 : BitVec 64).slt p.msgId then { s with poster := some { p with otid := some s.gTID } }
    else { s with poster := none }.ended
  | some otid => { s.postMessageToWorkingThread limit otid p.msg with poster := none }.ended

/-- The body of the message loop. -/
def Sys.dispatch (testTimerId : BitVec w) (m : Msg w) (s : Sys w) : Sys w :=
  if m.message = WM_TIMER then
    if m.wParam = testTimerId then { s with printed := s.printed ++ [.timer] } else s
  else if m.message = UM_TSRV_PRINT_PARAM then { s with printed := s.printed ++ [.value s.gValue] }
  else if m.message = UM_TSRV_SETVALUE_PARAM then
    { s with gValue := m.wParam.setWidth 32, printed := s.printed ++ [.param m.wParam] }
  else s

/-- `execute` of the worker; nothing while it waits for a message. -/
def Sys.stepWorker (x : Worker w) (s : Sys w) : Option (Sys w) :=
  match x.pc with
  | .starting => some { s with gTID := x.tid, worker := some { x with pc := .tidSet } }
  | .tidSet => some { s with worker := some { x with pc := .looping [] } }
  | .looping [] => none
  | .looping (m :: queue) =>
    if m.message = WM_QUIT then some { s with worker := none }.ended
    else some { s.dispatch x.testTimerId m with
      worker := some { x with pc := .looping queue }
      log := s.log ++ [.dispatch x.testTimerId m] }

/-- Take one step. A service that runs is not started again. -/
def step (limit : ℕ) (s : Sys w) : Act w → Option (Sys w)
  | .start msgId msgParam =>
    match s.poster with
    | some _ => some s
    | none => some { s with
        poster := some ⟨s.started.length, msgId, msgParam, none⟩
        started := s.started ++ [(msgId, msgParam)] }
  | .poster => s.poster.map fun p => s.stepPoster limit p
  | .startWorker tid testTimerId =>
    match s.worker with
    | some _ => some s
    | none => some { s with worker := some ⟨tid, testTimerId, .starting⟩ }
  | .worker => s.worker.bind fun x => s.stepWorker x
  | .post message wParam => some <|
    match s.worker with
    | some x => s.postThreadMessage limit x.tid ⟨message, wParam, none⟩
    | none => s
  | .load => some { s with clients := s.clients + 1 }
  | .unload => if s.clients = 0 then none else some { s with clients := s.clients - 1 }.ended
  | .killPoster => some { s with poster := none }.ended
  | .killWorker => some { s with worker := none }.ended

/-- The messages in the queue of the worker. -/
def Sys.queue (s : Sys w) : List (Msg w) :=
  match s.worker with
  | some ⟨_, _, .looping queue⟩ => queue
  | _ => []

/-- The messages that reached the queue of the worker, less those it left there. -/
def Sys.arrived (s : Sys w) : List (Msg w) := s.log.filterMap Event.msg ++ s.queue

/-- The worker is in its loop, it is the thread that is posted to, and it has room. -/
def Sys.listens (limit : ℕ) (otid : BitVec 32) (s : Sys w) : Bool :=
  match s.worker with
  | some ⟨t, _, .looping queue⟩ => !decide (otid < 5) && decide (t = otid ∧ queue.length < limit)
  | _ => false

/-- A run in which nothing is lost: the worker listens whenever it is posted to, and goes on. -/
def Ready (limit : ℕ) (s : Sys w) : Act w → Prop
  | .poster => ∀ p ∈ s.poster, ∀ otid ∈ p.otid, s.listens limit otid
  | .worker => ∀ m ∈ s.queue.head?, m.message ≠ WM_QUIT
  | .killPoster => False
  | .killWorker => False
  | _ => True

/-- What messages do to the value one after the other, and what they print. -/
def replay : BitVec 32 → List (Event w) → BitVec 32 × List (Line w)
  | v, [] => (v, [])
  | _, .unload :: es => replay 0 es
  | v, .dispatch testTimerId m :: es =>
    if m.message = WM_TIMER then
      ((replay v es).1, (if m.wParam = testTimerId then [.timer] else []) ++ (replay v es).2)
    else if m.message = UM_TSRV_PRINT_PARAM then
      ((replay v es).1, .value v :: (replay v es).2)
    else if m.message = UM_TSRV_SETVALUE_PARAM then
      ((replay (m.wParam.setWidth 32) es).1, .param m.wParam :: (replay (m.wParam.setWidth 32) es).2)
    else replay v es

section Delivery

variable {limit : ℕ} {s s' : Sys w} {a : Act w} {m : Msg w} {p : Poster} {tid : BitVec 32}

/-- A posted message comes last in the queue or is dropped, and nothing else happens. -/
theorem post_cases (limit : ℕ) (tid : BitVec 32) (m : Msg w) (s : Sys w) :
    s.postThreadMessage limit tid m = s ∨ ∃ timer queue,
      s.worker = some ⟨tid, timer, .looping queue⟩ ∧ queue.length < limit ∧
        s.postThreadMessage limit tid m =
          { s with worker := some ⟨tid, timer, .looping (queue ++ [m])⟩ } := by
  unfold Sys.postThreadMessage
  split
  case h_1 t timer queue hworker =>
    split_ifs with h
    · obtain ⟨rfl, hroom⟩ := h
      exact .inr ⟨timer, queue, hworker, hroom, rfl⟩
    · exact .inl rfl
  case h_2 => exact .inl rfl

/-- A worker that listens gets the message. -/
theorem post_listens {otid : BitVec 32} (h : s.listens limit otid) :
    ∃ timer queue, s.worker = some ⟨otid, timer, .looping queue⟩ ∧
      s.postMessageToWorkingThread limit otid m =
        { s with worker := some ⟨otid, timer, .looping (queue ++ [m])⟩ } := by
  unfold Sys.listens at h
  split at h
  case h_1 t timer queue hworker =>
    obtain ⟨htid, rfl, hroom⟩ : ¬otid < 5 ∧ t = otid ∧ queue.length < limit := by simpa using h
    refine ⟨timer, queue, hworker, ?_⟩
    rw [Sys.postMessageToWorkingThread, if_neg htid]
    simp [Sys.postThreadMessage, hworker, hroom]
  case h_2 => cases h

/-- What the clients are promised. -/
structure Sound (s : Sys w) : Prop where
  /-- Messages arrive in the order in which the service was started, each of them once. -/
  once : (s.arrived.filterMap Msg.call).Pairwise (· < ·)
  /-- Each is what its start asked for. -/
  origin : ∀ m ∈ s.arrived, ∀ n ∈ m.call, ∃ msgId msgParam, s.started[n]? = some (msgId, msgParam) ∧
    (0 : BitVec 64).slt msgId ∧ m.message = msgId.setWidth 32 ∧ m.wParam = msgParam.setWidth w
  /-- The posting service that runs is the last one, and its message did not arrive yet. -/
  posting : ∀ p ∈ s.poster, s.started[p.call]? = some (p.msgId, p.msgParam) ∧
    p.call + 1 = s.started.length ∧ (p.otid.isSome → (0 : BitVec 64).slt p.msgId) ∧
    ∀ n ∈ s.arrived.filterMap Msg.call, n < p.call
  /-- The worker did what the messages say. -/
  replayed : replay 0 s.log = (s.gValue, s.printed)

/-- Before the first step. -/
theorem sound_init : Sound (Sys.init : Sys w) :=
  ⟨List.Pairwise.nil, nofun, nofun, rfl⟩

/-- What arrived has its start. -/
theorem Sound.lt_length (h : Sound s) {n : ℕ} (hn : n ∈ s.arrived.filterMap Msg.call) :
    n < s.started.length := by
  obtain ⟨m, hm, hc⟩ := List.mem_filterMap.mp hn
  obtain ⟨_, _, hstarted, -⟩ := h.origin m hm n hc
  exact (List.getElem?_eq_some_iff.mp hstarted).1

/-- Messages may get lost. -/
theorem Sound.drop (h : Sound s) (hsub : s'.arrived.Sublist s.arrived)
    (hstarted : s'.started = s.started) (hposter : ∀ p ∈ s'.poster, p ∈ s.poster)
    (hreplayed : replay 0 s'.log = (s'.gValue, s'.printed)) : Sound s' where
  once := h.once.sublist (hsub.filterMap _)
  origin m hm := hstarted ▸ h.origin m (hsub.subset hm)
  posting p hp := by
    obtain ⟨hget, hlast, hpos, hlt⟩ := h.posting p (hposter p hp)
    rw [hstarted]
    exact ⟨hget, hlast, hpos, fun n hn => hlt n ((hsub.filterMap _).subset hn)⟩
  replayed := hreplayed

/-- Running commands one more. -/
theorem replay_append (v : BitVec 32) (es es' : List (Event w)) :
    replay v (es ++ es') =
      ((replay (replay v es).1 es').1, (replay v es).2 ++ (replay (replay v es).1 es').2) := by
  induction es generalizing v with
  | nil => rfl
  | cons e es ih =>
    cases e with
    | unload => exact ih 0
    | dispatch testTimerId m =>
      simp only [List.cons_append, replay, ih]
      split_ifs <;> simp

/-- The worker does what the message says. -/
theorem dispatch_replayed (h : replay 0 s.log = (s.gValue, s.printed)) (timer : BitVec w)
    (m : Msg w) : replay 0 (s.log ++ [.dispatch timer m]) =
      ((s.dispatch timer m).gValue, (s.dispatch timer m).printed) := by
  rw [replay_append, h]
  simp only [replay, Sys.dispatch]
  split_ifs <;> simp

/-- The end of a process changes nothing else. -/
theorem ended_cases (s : Sys w) : s.ended = s ∨ s.poster = none ∧
    s.ended = { s with gValue := 0, gTID := 0, log := s.log ++ [.unload] } := by
  unfold Sys.ended
  split_ifs with h
  · exact .inr ⟨Option.isNone_iff_eq_none.mp h.1, rfl⟩
  · exact .inl rfl

/-- What arrived does not change when a process ends. -/
@[simp] theorem ended_arrived (s : Sys w) : s.ended.arrived = s.arrived := by
  unfold Sys.ended
  split_ifs
  · simp [Sys.arrived, Sys.queue, Event.msg]
  · rfl

/-- Nor does what was started. -/
@[simp] theorem ended_started (s : Sys w) : s.ended.started = s.started := by
  unfold Sys.ended
  split_ifs <;> rfl

/-- Nor do the processes that post. -/
@[simp] theorem ended_poster (s : Sys w) : s.ended.poster = s.poster := by
  unfold Sys.ended
  split_ifs <;> rfl

/-- The shared value is back at zero when nobody has the library. -/
theorem ended_replayed (h : replay 0 s.log = (s.gValue, s.printed)) :
    replay 0 s.ended.log = (s.ended.gValue, s.ended.printed) := by
  rcases ended_cases s with he | ⟨-, he⟩
  · rw [he]
    exact h
  · rw [he, replay_append, h]
    simp [replay]

/-- A process may end. -/
theorem Sound.ended (h : Sound s) : Sound s.ended :=
  h.drop (by rw [ended_arrived]) (ended_started s) (fun p hp => ended_poster s ▸ hp)
    (ended_replayed h.replayed)

/-- The message of the posting service arrives. -/
theorem Sound.arrive (h : Sound s) (hp : p ∈ s.poster) (hotid : p.otid.isSome)
    (harrived : s'.arrived = s.arrived ++ [p.msg]) (hstarted : s'.started = s.started)
    (hposter : s'.poster = none)
    (hreplayed : replay 0 s'.log = (s'.gValue, s'.printed)) : Sound s' where
  once := by
    obtain ⟨-, -, -, hlt⟩ := h.posting p hp
    rw [harrived, List.filterMap_append]
    exact List.pairwise_append.mpr ⟨h.once, List.pairwise_singleton _ _, by simpa [Poster.msg] using hlt⟩
  origin m hm := by
    rw [harrived] at hm
    rw [hstarted]
    rcases List.mem_append.mp hm with hm | hm
    · exact h.origin m hm
    · obtain rfl := List.mem_singleton.mp hm
      obtain ⟨hget, -, hpos, -⟩ := h.posting p hp
      rintro n ⟨rfl⟩
      exact ⟨_, _, hget, hpos hotid, rfl, rfl⟩
  posting q hq := by
    rw [hposter] at hq
    cases hq
  replayed := hreplayed

/-- A message of somebody else arrives. -/
theorem Sound.arrive_other (h : Sound s) (hm : m.call = none)
    (harrived : s'.arrived = s.arrived ++ [m]) (hstarted : s'.started = s.started)
    (hposter : s'.poster = s.poster)
    (hreplayed : replay 0 s'.log = (s'.gValue, s'.printed)) : Sound s' := by
  have hcalls : s'.arrived.filterMap Msg.call = s.arrived.filterMap Msg.call := by
    simp [harrived, hm]
  refine ⟨hcalls ▸ h.once, fun m' hm' => ?_, fun p hp => ?_, hreplayed⟩
  · rw [harrived] at hm'
    rw [hstarted]
    rcases List.mem_append.mp hm' with hm' | hm'
    · exact h.origin m' hm'
    · obtain rfl := List.mem_singleton.mp hm'
      rw [hm]
      nofun
  · rw [hstarted, hcalls]
    exact h.posting p (hposter ▸ hp)

/-- What arrived was taken from the queue or is still on it. -/
theorem arrived_worker {timer : BitVec w} {queue : List (Msg w)}
    (h : s.worker = some ⟨tid, timer, .looping queue⟩) :
    s.arrived = s.log.filterMap Event.msg ++ queue := by
  simp [Sys.arrived, Sys.queue, h]

/-- A step of a process that posts keeps the order. -/
theorem stepPoster_sound (h : Sound s) (hp : p ∈ s.poster) : Sound (s.stepPoster limit p) := by
  have hposter : s.poster = some p := hp
  have hstop : Sound { s with poster := none } :=
    h.drop (List.Sublist.refl _) rfl nofun h.replayed
  unfold Sys.stepPoster
  split
  case h_1 hotid =>
    split_ifs with hpos
    · refine ⟨h.once, h.origin, ?_, h.replayed⟩
      rintro _ ⟨rfl⟩
      obtain ⟨hget, hlast, -, hlt⟩ := h.posting p hp
      exact ⟨hget, hlast, fun _ => hpos, hlt⟩
    · exact hstop.ended
  case h_2 otid hotid =>
    unfold Sys.postMessageToWorkingThread
    refine Sound.ended ?_
    split_ifs with hlt
    · exact hstop
    · rcases post_cases limit otid p.msg s with he | ⟨timer, queue, hworker, -, he⟩
      · rw [he]
        exact hstop
      · rw [he]
        refine h.arrive hp (by simp [hotid]) ?_ rfl rfl h.replayed
        rw [arrived_worker hworker, arrived_worker rfl, List.append_assoc]

/-- A dispatched message was in the queue. -/
theorem arrived_dispatch {timer : BitVec w} {queue : List (Msg w)}
    (h : s.worker = some ⟨tid, timer, .looping (m :: queue)⟩) :
    ({ s.dispatch timer m with
      worker := some ⟨tid, timer, .looping queue⟩
      log := s.log ++ [.dispatch timer m] } : Sys w).arrived = s.arrived := by
  rw [arrived_worker h, arrived_worker rfl, List.filterMap_append, List.append_assoc]
  rfl

/-- A message that is dispatched starts and posts nothing. -/
theorem dispatch_same (timer : BitVec w) (m : Msg w) (s : Sys w) :
    (s.dispatch timer m).started = s.started ∧ (s.dispatch timer m).poster = s.poster := by
  unfold Sys.dispatch
  split_ifs <;> exact ⟨rfl, rfl⟩

/-- A step of the worker keeps the order. -/
theorem stepWorker_sound {x : Worker w} (h : Sound s) (hx : s.worker = some x)
    (hs : s.stepWorker x = some s') : Sound s' := by
  obtain ⟨tid, timer, pc⟩ := x
  cases pc with
  | starting =>
    obtain rfl := Option.some.inj hs
    exact h.drop (by simp [Sys.arrived, Sys.queue]) rfl (fun _ hp => hp) h.replayed
  | tidSet =>
    obtain rfl := Option.some.inj hs
    exact h.drop (by simp [Sys.arrived, Sys.queue]) rfl (fun _ hp => hp) h.replayed
  | looping queue =>
    cases queue with
    | nil => cases hs
    | cons m queue =>
      simp only [Sys.stepWorker] at hs
      obtain ⟨hstarted, hposter⟩ := dispatch_same timer m s
      split_ifs at hs
      · obtain rfl := Option.some.inj hs
        refine Sound.ended (h.drop ?_ rfl (fun _ hp => hp) h.replayed)
        simp [Sys.arrived, Sys.queue]
      · obtain rfl := Option.some.inj hs
        refine h.drop ?_ hstarted (fun p hp => ?_) (dispatch_replayed h.replayed timer m)
        · rw [arrived_dispatch hx]
        · exact hposter ▸ hp

/-- One step of the system keeps what the clients are promised. -/
theorem step_sound (h : Sound s) (hs : step limit s a = some s') : Sound s' := by
  cases a with
  | start msgId msgParam =>
    cases hp : s.poster with
    | some p =>
      obtain rfl : s = s' := by simpa [step, hp] using hs
      exact h
    | none =>
      simp only [step, hp, Option.some.injEq] at hs
      subst hs
      refine ⟨h.once, fun m hm n hn => ?_, ?_, h.replayed⟩
      · obtain ⟨id, param, hget, hrest⟩ := h.origin m hm n hn
        exact ⟨id, param, List.getElem?_append_left (List.getElem?_eq_some_iff.mp hget).1 ▸ hget, hrest⟩
      · rintro _ ⟨rfl⟩
        exact ⟨List.getElem?_concat_length, by simp, nofun, fun n hn => h.lt_length hn⟩
  | poster =>
    obtain ⟨p, hp, rfl⟩ := Option.map_eq_some_iff.mp hs
    exact stepPoster_sound h hp
  | startWorker tid timer =>
    cases hx : s.worker with
    | some x =>
      obtain rfl : s = s' := by simpa [step, hx] using hs
      exact h
    | none =>
      simp only [step, hx, Option.some.injEq] at hs
      subst hs
      exact h.drop (by simp [Sys.arrived, Sys.queue]) rfl (fun _ hp => hp) h.replayed
  | worker =>
    obtain ⟨x, hx, hs⟩ := Option.bind_eq_some_iff.mp hs
    exact stepWorker_sound h hx hs
  | post message wParam =>
    obtain rfl := Option.some.inj hs
    cases hx : s.worker with
    | none => exact h
    | some x =>
      change Sound (s.postThreadMessage limit x.tid ⟨message, wParam, none⟩)
      rcases post_cases limit x.tid ⟨message, wParam, none⟩ s with he | ⟨timer, queue, hworker, -, he⟩
      · rw [he]
        exact h
      · rw [he]
        refine h.arrive_other (m := ⟨message, wParam, none⟩) rfl ?_ rfl rfl h.replayed
        rw [arrived_worker hworker, arrived_worker rfl, List.append_assoc]
  | load =>
    obtain rfl := Option.some.inj hs
    exact h.drop (List.Sublist.refl _) rfl (fun _ hp => hp) h.replayed
  | unload =>
    simp only [step] at hs
    split_ifs at hs
    obtain rfl := Option.some.inj hs
    exact Sound.ended (h.drop (List.Sublist.refl _) rfl (fun _ hp => hp) h.replayed)
  | killPoster =>
    obtain rfl := Option.some.inj hs
    exact Sound.ended (h.drop (List.Sublist.refl _) rfl nofun h.replayed)
  | killWorker =>
    obtain rfl := Option.some.inj hs
    refine Sound.ended (h.drop ?_ rfl (fun _ hp => hp) h.replayed)
    simp [Sys.arrived, Sys.queue]

/-- While no process has the library loaded, its section is as it is in the file. -/
def Unloaded (s : Sys w) : Prop :=
  s.poster = none → s.worker = none → s.clients = 0 → s.gValue = 0 ∧ s.gTID = 0

/-- It is, once the last process ended. -/
theorem ended_unloaded (s : Sys w) : Unloaded s.ended := by
  unfold Sys.ended
  split_ifs with h
  · exact fun _ _ _ => ⟨rfl, rfl⟩
  · intro hposter hworker hclients
    exact absurd ⟨by simp [hposter], by simp [hworker], hclients⟩ h

/-- No step changes that. -/
theorem step_unloaded (h : Unloaded s) (hs : step limit s a = some s') : Unloaded s' := by
  cases a with
  | start msgId msgParam =>
    cases hp : s.poster with
    | some p =>
      obtain rfl : s = s' := by simpa [step, hp] using hs
      exact h
    | none =>
      simp only [step, hp, Option.some.injEq] at hs
      subst hs
      exact nofun
  | poster =>
    obtain ⟨p, hp, rfl⟩ := Option.map_eq_some_iff.mp hs
    unfold Sys.stepPoster
    split
    · split_ifs
      · exact nofun
      · exact ended_unloaded _
    · exact ended_unloaded _
  | startWorker tid timer =>
    cases hx : s.worker with
    | some x =>
      obtain rfl : s = s' := by simpa [step, hx] using hs
      exact h
    | none =>
      simp only [step, hx, Option.some.injEq] at hs
      subst hs
      exact nofun
  | worker =>
    obtain ⟨⟨tid, timer, pc⟩, hx, hs⟩ := Option.bind_eq_some_iff.mp hs
    cases pc with
    | starting | tidSet =>
      obtain rfl := Option.some.inj hs
      exact nofun
    | looping queue =>
      cases queue with
      | nil => cases hs
      | cons m queue =>
        simp only [Sys.stepWorker] at hs
        split_ifs at hs
        · obtain rfl := Option.some.inj hs
          exact ended_unloaded _
        · obtain rfl := Option.some.inj hs
          exact nofun
  | post message wParam =>
    obtain rfl := Option.some.inj hs
    cases hx : s.worker with
    | none => exact h
    | some x =>
      change Unloaded (s.postThreadMessage limit x.tid ⟨message, wParam, none⟩)
      rcases post_cases limit x.tid ⟨message, wParam, none⟩ s with he | ⟨timer, queue, -, -, he⟩
      · rw [he]
        exact h
      · rw [he]
        exact nofun
  | load =>
    obtain rfl := Option.some.inj hs
    intro _ _ hclients
    cases hclients
  | unload =>
    simp only [step] at hs
    split_ifs at hs
    obtain rfl := Option.some.inj hs
    exact ended_unloaded _
  | killPoster | killWorker =>
    obtain rfl := Option.some.inj hs
    exact ended_unloaded _

/-- Every start with a message got it to the worker, but for the service that still runs. -/
def Complete (s : Sys w) : Prop :=
  ∀ n msgId msgParam, s.started[n]? = some (msgId, msgParam) → (0 : BitVec 64).slt msgId →
    (∀ p ∈ s.poster, p.call ≠ n) → n ∈ s.arrived.filterMap Msg.call

/-- Nothing is lost where no call goes away. -/
theorem Complete.keep (hc : Complete s) (hsub : s.arrived.Sublist s'.arrived)
    (hstarted : s'.started = s.started)
    (hposter : ∀ p ∈ s.poster, ∃ q ∈ s'.poster, q.call = p.call) : Complete s' := by
  intro n msgId msgParam hget hpos hn
  refine (hsub.filterMap _).subset (hc n msgId msgParam (hstarted ▸ hget) hpos fun p hp he => ?_)
  obtain ⟨q, hq, hcall⟩ := hposter p hp
  exact hn q hq (hcall.trans he)

/-- Nor is something lost when a process ends. -/
theorem Complete.ended (hc : Complete s) : Complete s.ended :=
  hc.keep (by rw [ended_arrived]) (ended_started s) fun p hp => ⟨p, ended_poster s ▸ hp, rfl⟩

/-- The posting service stops with its message delivered, or without a message. -/
theorem stepPoster_complete (h : Sound s) (hc : Complete s) (hp : p ∈ s.poster)
    (hr : ∀ otid ∈ p.otid, s.listens limit otid) : Complete (s.stepPoster limit p) := by
  obtain ⟨hget, -, -, -⟩ := h.posting p hp
  have hposter : s.poster = some p := hp
  have hothers : ∀ n, n ≠ p.call → ∀ q ∈ s.poster, q.call ≠ n := fun n hn q hq => by
    obtain rfl : p = q := Option.some.inj (hposter.symm.trans hq)
    exact hn.symm
  unfold Sys.stepPoster
  split
  case h_1 =>
    split_ifs with hpos
    · refine hc.keep (List.Sublist.refl _) rfl fun q hq => ?_
      obtain rfl : p = q := Option.some.inj (hposter.symm.trans hq)
      exact ⟨_, rfl, rfl⟩
    · refine Complete.ended fun n msgId msgParam hget' hpos' _ => ?_
      rcases eq_or_ne n p.call with rfl | hn
      · obtain ⟨rfl, -⟩ := Prod.mk.inj (Option.some.inj (hget.symm.trans hget'))
        exact (hpos hpos').elim
      · exact hc n msgId msgParam hget' hpos' (hothers n hn)
  case h_2 otid hotid =>
    obtain ⟨timer, queue, hworker, he⟩ := post_listens (m := p.msg) (hr otid hotid)
    rw [he]
    refine Complete.ended fun n msgId msgParam hget' hpos' _ => ?_
    rw [arrived_worker rfl, ← List.append_assoc, ← arrived_worker hworker, List.filterMap_append]
    rcases eq_or_ne n p.call with rfl | hn
    · exact List.mem_append_right _ (by simp [Poster.msg])
    · exact List.mem_append_left _ (hc n msgId msgParam hget' hpos' (hothers n hn))

/-- Nothing is lost in a step of a worker that listens. -/
theorem step_complete (h : Sound s) (hc : Complete s) (hr : Ready limit s a)
    (hs : step limit s a = some s') : Complete s' := by
  cases a with
  | start msgId msgParam =>
    cases hp : s.poster with
    | some p =>
      obtain rfl : s = s' := by simpa [step, hp] using hs
      exact hc
    | none =>
      simp only [step, hp, Option.some.injEq] at hs
      subst hs
      intro n id param hget hpos hn
      have hne : n ≠ s.started.length := fun he => hn _ rfl he.symm
      refine hc n id param ?_ hpos (by simp [hp])
      rw [List.getElem?_append] at hget
      split_ifs at hget with hlt
      · exact hget
      · obtain ⟨hlt', -⟩ := List.getElem?_eq_some_iff.mp hget
        have hle : n - s.started.length < 1 := hlt'
        omega
  | poster =>
    obtain ⟨p, hp, rfl⟩ := Option.map_eq_some_iff.mp hs
    exact stepPoster_complete h hc hp (hr p hp)
  | startWorker tid timer =>
    cases hx : s.worker with
    | some x =>
      obtain rfl : s = s' := by simpa [step, hx] using hs
      exact hc
    | none =>
      simp only [step, hx, Option.some.injEq] at hs
      subst hs
      exact hc.keep (by simp [Sys.arrived, Sys.queue, hx]) rfl fun p hp => ⟨p, hp, rfl⟩
  | worker =>
    obtain ⟨⟨tid, timer, pc⟩, hx, hs⟩ := Option.bind_eq_some_iff.mp hs
    cases pc with
    | starting =>
      obtain rfl := Option.some.inj hs
      exact hc.keep (by simp [Sys.arrived, Sys.queue, hx]) rfl fun p hp => ⟨p, hp, rfl⟩
    | tidSet =>
      obtain rfl := Option.some.inj hs
      exact hc.keep (by simp [Sys.arrived, Sys.queue, hx]) rfl fun p hp => ⟨p, hp, rfl⟩
    | looping queue =>
      cases queue with
      | nil => cases hs
      | cons m queue =>
        have hm : m.message ≠ WM_QUIT := hr m (by simp [Sys.queue, hx])
        simp only [Sys.stepWorker, if_neg hm, Option.some.injEq] at hs
        subst hs
        obtain ⟨hstarted, hposter⟩ := dispatch_same timer m s
        refine hc.keep ?_ hstarted fun p hp => ⟨p, hposter.symm ▸ hp, rfl⟩
        rw [arrived_dispatch hx]
  | post message wParam =>
    obtain rfl := Option.some.inj hs
    cases hx : s.worker with
    | none => exact hc
    | some x =>
      change Complete (s.postThreadMessage limit x.tid ⟨message, wParam, none⟩)
      rcases post_cases limit x.tid ⟨message, wParam, none⟩ s with he | ⟨timer, queue, hworker, -, he⟩
      · rw [he]
        exact hc
      · rw [he]
        refine hc.keep ?_ rfl fun p hp => ⟨p, hp, rfl⟩
        rw [arrived_worker hworker, arrived_worker rfl]
        simp
  | load =>
    obtain rfl := Option.some.inj hs
    exact hc.keep (List.Sublist.refl _) rfl fun p hp => ⟨p, hp, rfl⟩
  | unload =>
    simp only [step] at hs
    split_ifs at hs
    obtain rfl := Option.some.inj hs
    exact Complete.ended (hc.keep (List.Sublist.refl _) rfl fun p hp => ⟨p, hp, rfl⟩)
  | killPoster => exact hr.elim
  | killWorker => exact hr.elim

/-- Whatever the services, their clients and the system do in any order: the worker does what the
clients ask for one after the other, in their order and each of it once. While it listens it gets
everything. -/
theorem messages_delivered {as : List (Act w)} (hs : run (step limit) Sys.init as = some s) :
    Sound s ∧ Unloaded s ∧ (Along (Ready limit) (step limit) Sys.init as → Complete s) := by
  have hsound : Sound s := run_invariant (fun _ _ _ h hs => step_sound h hs) sound_init hs
  have hunloaded : Unloaded s :=
    run_invariant (fun _ _ _ h hs => step_unloaded h hs) (fun _ _ _ => ⟨rfl, rfl⟩) hs
  refine ⟨hsound, hunloaded, fun hready => ?_⟩
  have hboth := along_invariant (I := fun s => Sound s ∧ Complete s)
    (fun _ _ _ h hr hs => ⟨step_sound h.1 hs, step_complete h.1 h.2 hr hs⟩)
    ⟨sound_init, nofun⟩ hready hs
  exact hboth.2

/-- A client sets a value before the worker has its queue, sets another one, and has it printed
after the test timer went off; in the end everybody is gone, and another worker prints again. -/
def early : List (Act 64) :=
  [.load, .startWorker 8 1, .worker, postMessageBySrv UM_TSRV_SETVALUE_PARAM (23 : BitVec 64),
    .poster, .poster, .worker, postMessageBySrv UM_TSRV_SETVALUE_PARAM (24 : BitVec 64), .poster,
    .post UM_TSRV_PRINT_PARAM 0, .poster, .post WM_TIMER 1,
    postMessageBySrv UM_TSRV_PRINT_PARAM (0 : BitVec 64), .poster, .worker, .poster, .worker, .worker,
    .worker, .unload, .killWorker, .startWorker 9 2, .worker, .worker, .post UM_TSRV_PRINT_PARAM 0,
    .worker]

/-- The first value is lost, and the other messages are not. -/
theorem messages_delivered_early :
    ∃ s, run (step 10000) Sys.init early = some s ∧ Sound s ∧
      s.printed = [.value 0, .param 24, .timer, .value 24, .value 0] ∧ s.gValue = 0 := by
  have hend : (run (step 10000) Sys.init early).map (fun s => (s.printed, s.gValue)) =
      some ([.value 0, .param 24, .timer, .value 24, .value 0], 0) := by decide
  obtain ⟨s, hs, he⟩ := Option.map_eq_some_iff.mp hend
  obtain ⟨hprinted, hvalue⟩ := Prod.mk.inj he
  exact ⟨s, hs, (messages_delivered hs).1, hprinted, hvalue⟩

end Delivery

end KernelLib.ServiceMessages

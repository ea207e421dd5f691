import Mathlib.Data.List.Infix
import PureOS.Foundation.Run

set_option autoImplicit false

/-!
# Smp: the work queue of a processor (`smp.rs`)

`push_work` and `process_work_queue` share a ring of 32 places.  A run of `process_work_queue`
moves the head only when the handler has returned, so what interrupts it in between finds an item
that is already being executed.  The steps are those of the source: every read and every write of
the queue is one, and an interrupt may put another run on top of the one that is going on.
-/

namespace PureOS.Smp

open PureOS.Foundation

/-! ## The code -/

/-- `WORK_QUEUE_SIZE`. -/
def workQueueSize : Nat := 32

/-- Where a run of `process_work_queue` is. -/
inductive Frame (α : Type) where
  /-- At the test of its loop. -/
  | test
  /-- The test has read the head. -/
  | tested (head : Nat)
  /-- The queue was not empty. -/
  | entered
  /-- `let head = WORK_QUEUE_HEADS[cpu_id]`. -/
  | fetched (head : Nat)
  /-- The item is read. -/
  | loaded (head : Nat) (handler : Option α)
  /-- In the handler. -/
  | called (head : Nat)
  /-- Before the head is written. -/
  | returned (head : Nat)

/-- Where a call of `push_work` is. -/
inductive Pusher (α : Type) where
  | idle
  | started (item : α)
  /-- `let tail = WORK_QUEUE_TAILS[cpu_id]`. -/
  | tailRead (item : α) (tail : Nat)
  /-- The head was read, and there was room. -/
  | admitted (item : α) (tail : Nat)
  /-- The item is in its place. -/
  | stored (item : α) (tail : Nat)

/-- The queue of a processor, the runs on the processor with the innermost one first, the calls of
`push_work`, and what has happened so far. -/
structure Queue (α : Type) where
  slots : Nat → Option α
  head : Nat
  tail : Nat
  frames : List (Frame α)
  pushers : Nat → Pusher α
  /-- What `push_work` has accepted. -/
  pushed : List α
  /-- The items whose handlers were called. -/
  executed : List α
  /-- How many handlers have returned. -/
  finished : Nat
  /-- How many of the accepted items were not finished, each time an item was rejected. -/
  rejections : List Nat
  /-- How many of the accepted items were not executed, each time a run ended. -/
  leftovers : List Nat

/-- The next thing that happens: `push_work` is called or makes a step, or `process_work_queue` is
called, by the idle loop or by an interrupt, or makes a step. -/
inductive Event (α : Type) where
  | callPush (pid : Nat) (item : α)
  | push (pid : Nat)
  | callRun
  | run

namespace Queue

variable {α : Type} (q : Queue α)

/-- A call of `push_work` goes on. -/
def setPusher (pid : Nat) (pusher : Pusher α) : Queue α :=
  { q with pushers := fun i => if i = pid then pusher else q.pushers i }

/-- A step of `push_work`. -/
def stepPush (pid : Nat) : Option (Queue α) :=
  match q.pushers pid with
  | .idle => none
  | .started item => some (q.setPusher pid (.tailRead item q.tail))
  | .tailRead item tail =>
      if (tail + 1) % workQueueSize = q.head then
        some { q.setPusher pid .idle with
          rejections := q.rejections ++ [q.pushed.length - q.finished] }
      else some (q.setPusher pid (.admitted item tail))
  | .admitted item tail =>
      some { q.setPusher pid (.stored item tail) with
        slots := fun i => if i = tail then some item else q.slots i }
  | .stored item tail =>
      some { q.setPusher pid .idle with
        tail := (tail + 1) % workQueueSize
        pushed := q.pushed ++ [item] }

/-- A step of the innermost run of `process_work_queue`. -/
def stepRun : Option (Queue α) :=
  match q.frames with
  | [] => none
  | .test :: rest => some { q with frames := .tested q.head :: rest }
  | .tested head :: rest =>
      if head ≠ q.tail then some { q with frames := .entered :: rest }
      else some { q with
        frames := rest
        leftovers := q.leftovers ++ [q.pushed.length - q.executed.length] }
  | .entered :: rest => some { q with frames := .fetched q.head :: rest }
  | .fetched head :: rest => some { q with frames := .loaded head (q.slots head) :: rest }
  | .loaded head (some item) :: rest =>
      some { q with frames := .called head :: rest, executed := q.executed ++ [item] }
  | .loaded head none :: rest => some { q with frames := .returned head :: rest }
  | .called head :: rest =>
      some { q with frames := .returned head :: rest, finished := q.finished + 1 }
  | .returned head :: rest =>
      some { q with frames := .test :: rest, head := (head + 1) % workQueueSize }

/-- One step. -/
def step : Event α → Option (Queue α)
  | .callPush pid item =>
      match q.pushers pid with
      | .idle => some (q.setPusher pid (.started item))
      | _ => none
  | .push pid => q.stepPush pid
  | .callRun => some { q with frames := .test :: q.frames }
  | .run => q.stepRun

end Queue

/-! ## Runs -/

section

variable {α : Type}

/-- Before anything happens. -/
structure Queue.Empty (q : Queue α) : Prop where
  head : q.head = 0
  tail : q.tail = 0
  frames : q.frames = []
  pushers : ∀ pid, q.pushers pid = .idle
  pushed : q.pushed = []
  executed : q.executed = []
  finished : q.finished = 0
  rejections : q.rejections = []
  leftovers : q.leftovers = []

/-- Any order of steps. -/
def AnyStep (q : Queue α) (event : Event α) (q' : Queue α) : Prop := q.step event = some q'

/-- A call of `push_work` that has read the tail and will write it, or not. -/
def Pusher.Engaged : Pusher α → Prop
  | .idle => False
  | .started _ => False
  | _ => True

/-- No call of `push_work` reads the tail while another one is about to write it, none finds the
queue full between the return of a handler and the write of the head, and no run gets past its test
while it interrupts another one that has begun its test or is beyond it. -/
def Queue.Careful (q : Queue α) : Event α → Prop
  | .callPush _ _ => True
  | .push pid =>
      (∀ item, q.pushers pid = .started item → ∀ pid', ¬(q.pushers pid').Engaged) ∧
        ∀ item tail, q.pushers pid = .tailRead item tail → (tail + 1) % workQueueSize = q.head →
          ∀ head, .returned head ∉ q.frames
  | .callRun => True
  | .run => ∀ head rest, q.frames = .tested head :: rest → head ≠ q.tail →
      ∀ frame ∈ rest, frame = .test

/-- A step that is taken with care. -/
def CarefulStep (q : Queue α) (event : Event α) (q' : Queue α) : Prop :=
  AnyStep q event q' ∧ q.Careful event

/-! ## What is kept -/

/-- A run that has not got past its test, and whose test has read the head that is. -/
def Waiting (head : Nat) (frame : Frame α) : Prop := frame = .test ∨ frame = .tested head

/-- The run that is at the item `count`, and how many handlers were called and have returned. -/
inductive Busy (pushed : List α) (count : Nat) : Frame α → Nat → Nat → Prop
  | entered : Busy pushed count .entered count count
  | fetched : Busy pushed count (.fetched (count % workQueueSize)) count count
  | loaded {item : α} (h : pushed[count]? = some item) :
      Busy pushed count (.loaded (count % workQueueSize) (some item)) count count
  | called : Busy pushed count (.called (count % workQueueSize)) (count + 1) count
  | returned : Busy pushed count (.returned (count % workQueueSize)) (count + 1) (count + 1)

/-- The runs on the processor: at most one is past its test, and it interrupts none that has begun
it. -/
inductive Stack (head : Nat) (pushed : List α) (count : Nat) : List (Frame α) → Nat → Nat → Prop
  | idle {frames : List (Frame α)} (waiting : ∀ frame ∈ frames, Waiting head frame) :
      Stack head pushed count frames count count
  | active {above below : List (Frame α)} {frame : Frame α} {called returned : Nat}
      (lt : count < pushed.length) (waiting : ∀ frame ∈ above, Waiting head frame)
      (busy : Busy pushed count frame called returned) (tests : ∀ frame ∈ below, frame = .test) :
      Stack head pushed count (above ++ frame :: below) called returned

/-- What a call of `push_work` knows. -/
def Knows (slots : Nat → Option α) (pushed : List α) (count : Nat) : Pusher α → Prop
  | .idle => True
  | .started _ => True
  | .tailRead _ tail => tail = pushed.length % workQueueSize
  | .admitted _ tail =>
      tail = pushed.length % workQueueSize ∧ pushed.length + 1 < count + workQueueSize
  | .stored item tail =>
      (tail = pushed.length % workQueueSize ∧ pushed.length + 1 < count + workQueueSize) ∧
        slots tail = some item

/-- The queue holds the items from the number `count` on. -/
structure Queue.Ordered (q : Queue α) (count : Nat) : Prop where
  le : count ≤ q.pushed.length
  room : q.pushed.length < count + workQueueSize
  head : q.head = count % workQueueSize
  tail : q.tail = q.pushed.length % workQueueSize
  slots : ∀ i, count ≤ i → i < q.pushed.length → q.slots (i % workQueueSize) = q.pushed[i]?
  stack : ∃ called, Stack q.head q.pushed count q.frames called q.finished ∧ q.executed = q.pushed.take called
  pushers : ∀ pid, Knows q.slots q.pushed count (q.pushers pid)
  alone : ∀ pid pid', (q.pushers pid).Engaged → (q.pushers pid').Engaged → pid = pid'
  rejections : ∀ n ∈ q.rejections, n + 1 = workQueueSize
  leftovers : ∀ n ∈ q.leftovers, n = 0

section

variable {head count called returned : Nat} {pushed : List α} {frames : List (Frame α)}

/-- The runs do not see that an item is added. -/
theorem Stack.push (h : Stack head pushed count frames called returned) (item : α) :
    Stack head (pushed ++ [item]) count frames called returned := by
  cases h with
  | idle waiting => exact .idle waiting
  | active lt waiting busy tests =>
      refine .active ?_ waiting ?_ tests
      · rw [List.length_append]
        omega
      · cases busy with
        | entered => exact .entered
        | fetched => exact .fetched
        | loaded h => exact .loaded (by rw [List.getElem?_append_left lt, h])
        | called => exact .called
        | returned => exact .returned

/-- No more handlers were called than items were accepted. -/
theorem Stack.called_le (h : Stack head pushed count frames called returned)
    (hle : count ≤ pushed.length) : called ≤ pushed.length := by
  cases h with
  | idle => exact hle
  | active lt _ busy =>
      cases busy with
      | entered => exact hle
      | fetched => exact hle
      | loaded => exact hle
      | called => exact lt
      | returned => exact lt

/-- Unless a run is about to write the head, the finished items are those that are gone. -/
theorem Stack.finished_eq (h : Stack head pushed count frames called returned)
    (hno : ∀ head, .returned head ∉ frames) : returned = count := by
  cases h with
  | idle => rfl
  | active _ _ busy =>
      cases busy with
      | entered => rfl
      | fetched => rfl
      | loaded => rfl
      | called => rfl
      | returned => exact absurd (List.mem_append_right _ List.mem_cons_self) (hno _)

/-- A run that waits may interrupt any other one. -/
theorem Stack.cons (h : Stack head pushed count frames called returned) {frame : Frame α}
    (hwaiting : Waiting head frame) :
    Stack head pushed count (frame :: frames) called returned := by
  cases h with
  | idle waiting => exact .idle (List.forall_mem_cons.mpr ⟨hwaiting, waiting⟩)
  | @active above below busy _ _ lt waiting hbusy tests =>
      exact @Stack.active α head pushed count (frame :: above) below busy called returned lt
        (List.forall_mem_cons.mpr ⟨hwaiting, waiting⟩) hbusy tests

/-- Runs that are all at their test are at no item. -/
theorem Stack.eq_of_tests (h : Stack head pushed count frames called returned)
    (htests : ∀ frame ∈ frames, frame = .test) : called = count ∧ returned = count := by
  cases h with
  | idle => exact ⟨rfl, rfl⟩
  | active _ _ busy =>
      have htest := htests _ (List.mem_append_right _ List.mem_cons_self)
      rw [htest] at busy
      cases busy

/-- Where nothing is left no run is at an item. -/
theorem Stack.eq_of_empty (h : Stack head pushed count frames called returned)
    (hempty : count = pushed.length) : called = count := by
  cases h with
  | idle => rfl
  | active lt => exact absurd hempty (Nat.ne_of_lt lt)

/-- A call of `push_work` does not see that an item is gone. -/
theorem Knows.succ {slots : Nat → Option α} {pusher : Pusher α}
    (h : Knows slots pushed count pusher) : Knows slots pushed (count + 1) pusher := by
  cases pusher with
  | idle => trivial
  | started => trivial
  | tailRead => exact h
  | admitted => exact ⟨h.1, Nat.lt_of_lt_of_le h.2 (by omega)⟩
  | stored => exact ⟨⟨h.1.1, Nat.lt_of_lt_of_le h.1.2 (by omega)⟩, h.2⟩

/-- Places that are less than a round apart are different. -/
theorem place_ne {i n : Nat} (hi : i < n) (hn : n < i + workQueueSize) :
    i % workQueueSize ≠ n % workQueueSize := by
  unfold workQueueSize at *
  omega

end

/-! ## Pushing -/

variable {q q' : Queue α} {count pid : Nat} {event : Event α}

namespace Queue

theorem setPusher_self (q : Queue α) (pid : Nat) (pusher : Pusher α) :
    (q.setPusher pid pusher).pushers pid = pusher := if_pos rfl

theorem setPusher_other {pid' : Nat} (h : pid' ≠ pid) (pusher : Pusher α) :
    (q.setPusher pid pusher).pushers pid' = q.pushers pid' := if_neg h

/-- What becomes of a call of `push_work` is nothing to the other ones. -/
theorem forall_setPusher {P : Nat → Pusher α → Prop} {pusher : Pusher α} (hself : P pid pusher)
    (hothers : ∀ pid', pid' ≠ pid → P pid' (q.pushers pid')) (pid' : Nat) :
    P pid' ((q.setPusher pid pusher).pushers pid') := by
  by_cases hpid : pid' = pid
  · rw [hpid, setPusher_self]
    exact hself
  · rw [setPusher_other hpid]
    exact hothers pid' hpid

/-- At most one call is engaged, if the one that goes on is not, or no other one is. -/
theorem Ordered.alone_setPusher (h : q.Ordered count) {pusher : Pusher α}
    (hothers : pusher.Engaged → ∀ pid', (q.pushers pid').Engaged → pid' = pid) (a b : Nat)
    (ha : ((q.setPusher pid pusher).pushers a).Engaged)
    (hb : ((q.setPusher pid pusher).pushers b).Engaged) : a = b := by
  by_cases hpa : a = pid
  · by_cases hpb : b = pid
    · rw [hpa, hpb]
    · rw [hpa, setPusher_self] at ha
      rw [setPusher_other hpb] at hb
      rw [hpa, hothers ha b hb]
  · rw [setPusher_other hpa] at ha
    by_cases hpb : b = pid
    · rw [hpb, setPusher_self] at hb
      rw [hpb, hothers hb a ha]
    · rw [setPusher_other hpb] at hb
      exact h.alone a b ha hb

theorem knows_of_not_engaged {pusher : Pusher α} (h : ¬pusher.Engaged) (slots : Nat → Option α)
    (pushed : List α) (count : Nat) : Knows slots pushed count pusher := by
  cases pusher with
  | idle => trivial
  | started => trivial
  | tailRead => exact absurd trivial h
  | admitted => exact absurd trivial h
  | stored => exact absurd trivial h

/-- A step of `push_work`. -/
theorem Ordered.stepPush (h : q.Ordered count) (hcareful : q.Careful (.push pid))
    (hstep : q.stepPush pid = some q') : q'.Ordered count := by
  have hothers (hengaged : (q.pushers pid).Engaged) (pid' : Nat) :
      (q.pushers pid').Engaged → pid' = pid := fun hpid' => h.alone pid' pid hpid' hengaged
  have hrest (hengaged : (q.pushers pid).Engaged) (slots : Nat → Option α) (pushed : List α)
      (pid' : Nat) (hpid : pid' ≠ pid) : Knows slots pushed count (q.pushers pid') :=
    knows_of_not_engaged (fun hpid' => hpid (hothers hengaged pid' hpid')) slots pushed count
  have hle := h.le
  have hroom := h.room
  have hknows := h.pushers pid
  obtain ⟨called, hstack, hexecuted⟩ := h.stack
  rw [Queue.stepPush] at hstep
  cases hpusher : q.pushers pid with
  | idle =>
      rw [hpusher] at hstep
      cases hstep
  | started item =>
      rw [hpusher] at hstep
      cases hstep
      have hnone (pid' : Nat) (hpid' : (q.pushers pid').Engaged) : pid' = pid :=
        absurd hpid' (hcareful.1 item hpusher pid')
      exact { h with
        pushers := forall_setPusher h.tail fun pid' _ => h.pushers pid'
        alone := h.alone_setPusher fun _ => hnone }
  | tailRead item tail =>
      have hengaged : (q.pushers pid).Engaged := hpusher ▸ trivial
      rw [hpusher] at hstep hknows
      obtain rfl : tail = _ := hknows
      dsimp only at hstep
      split at hstep
      · rename_i hfull
        cases hstep
        have hfinished := hstack.finished_eq (hcareful.2 item _ hpusher hfull)
        rw [h.head] at hfull
        refine { h with
          pushers := forall_setPusher trivial fun pid' _ => h.pushers pid'
          alone := h.alone_setPusher fun _ => hothers hengaged
          rejections := fun n hn => ?_ }
        rcases List.mem_append.mp hn with hn | hn
        · exact h.rejections n hn
        · obtain rfl := List.mem_singleton.mp hn
          rw [hfinished]
          unfold workQueueSize at *
          omega
      · rename_i hfree
        cases hstep
        rw [h.head] at hfree
        have hadmitted : q.pushed.length + 1 < count + workQueueSize := by
          unfold workQueueSize at *
          omega
        exact { h with
          pushers := forall_setPusher ⟨rfl, hadmitted⟩ fun pid' _ => h.pushers pid'
          alone := h.alone_setPusher fun _ => hothers hengaged }
  | admitted item tail =>
      have hengaged : (q.pushers pid).Engaged := hpusher ▸ trivial
      rw [hpusher] at hstep hknows
      obtain ⟨rfl, hadmitted⟩ := hknows
      cases hstep
      exact { h with
        slots := fun i hi hlt => by
          replace hlt : i < q.pushed.length := hlt
          exact (if_neg (place_ne hlt (by omega))).trans (h.slots i hi hlt)
        pushers := forall_setPusher ⟨⟨rfl, hadmitted⟩, if_pos rfl⟩ (hrest hengaged _ _)
        alone := h.alone_setPusher fun _ => hothers hengaged }
  | stored item tail =>
      have hengaged : (q.pushers pid).Engaged := hpusher ▸ trivial
      rw [hpusher] at hstep hknows
      obtain ⟨⟨rfl, hadmitted⟩, hslot⟩ := hknows
      cases hstep
      have hlength : (q.pushed ++ [item]).length = q.pushed.length + 1 := List.length_append
      exact { h with
        le := by rw [hlength]; omega
        room := by rw [hlength]; exact hadmitted
        tail := by rw [hlength]; exact Nat.mod_add_mod _ _ _
        slots := fun i hi hlt => by
          rw [hlength] at hlt
          rcases Nat.lt_or_eq_of_le (Nat.le_of_lt_succ hlt) with hold | rfl
          · exact (h.slots i hi hold).trans (List.getElem?_append_left hold).symm
          · exact hslot.trans List.getElem?_concat_length.symm
        stack := ⟨called, hstack.push item, by
          rw [List.take_append_of_le_length (hstack.called_le hle)]
          exact hexecuted⟩
        pushers := forall_setPusher trivial (hrest hengaged _ _)
        alone := h.alone_setPusher fun _ => hothers hengaged }

/-! ## Running -/

/-- A step of a run that waits. -/
theorem Ordered.stepWaiting (h : q.Ordered count) (hcareful : q.Careful .run) {frame : Frame α}
    {rest : List (Frame α)} {called : Nat} (hframes : q.frames = frame :: rest)
    (hwaiting : Waiting q.head frame)
    (hrest : Stack q.head q.pushed count rest called q.finished)
    (hexecuted : q.executed = q.pushed.take called) (hstep : q.stepRun = some q') :
    q'.Ordered count := by
  have hle := h.le
  have hroom := h.room
  rw [Queue.stepRun, hframes] at hstep
  rcases hwaiting with rfl | rfl
  · cases hstep
    exact { h with stack := ⟨called, hrest.cons (Or.inr rfl), hexecuted⟩ }
  · have hindex : q.head = q.tail ↔ count = q.pushed.length := by
      rw [h.head, h.tail]
      unfold workQueueSize at *
      omega
    dsimp only at hstep
    split at hstep
    · rename_i hne
      have htests := hcareful _ rest hframes hne
      obtain ⟨rfl, hfinished⟩ := hrest.eq_of_tests htests
      cases hstep
      have hlt : called < q.pushed.length := Nat.lt_of_le_of_ne hle (mt hindex.mpr hne)
      have hstack : Stack q.head q.pushed called (.entered :: rest) called q.finished := by
        rw [hfinished]
        exact @Stack.active α q.head q.pushed called [] rest .entered called called hlt
          (List.forall_mem_nil _) .entered htests
      exact { h with stack := ⟨called, hstack, hexecuted⟩ }
    · rename_i heq
      cases hstep
      have hempty := hindex.mp (Classical.not_not.mp heq)
      obtain rfl := hrest.eq_of_empty hempty
      refine { h with stack := ⟨called, hrest, hexecuted⟩, leftovers := fun n hn => ?_ }
      rcases List.mem_append.mp hn with hn | hn
      · exact h.leftovers n hn
      · obtain rfl := List.mem_singleton.mp hn
        rw [hexecuted, List.length_take]
        omega

/-- A step of the run that is at an item. -/
theorem Ordered.stepBusy (h : q.Ordered count) {frame : Frame α} {rest : List (Frame α)}
    {called : Nat} (hframes : q.frames = frame :: rest) (hlt : count < q.pushed.length)
    (hbusy : Busy q.pushed count frame called q.finished) (htests : ∀ frame ∈ rest, frame = .test)
    (hexecuted : q.executed = q.pushed.take called) (hstep : q.stepRun = some q') :
    ∃ count, q'.Ordered count := by
  have hroom := h.room
  have hnext {frame : Frame α} {called finished : Nat}
      (hbusy : Busy q.pushed count frame called finished) :
      Stack q.head q.pushed count (frame :: rest) called finished :=
    @Stack.active α q.head q.pushed count [] rest frame called finished hlt
      (List.forall_mem_nil _) hbusy htests
  rw [Queue.stepRun, hframes] at hstep
  generalize hfinished : q.finished = finished at hbusy
  cases hbusy with
  | entered =>
      cases hstep
      refine ⟨count, { h with stack := ⟨count, ?_, hexecuted⟩ }⟩
      have hfetched := hnext .fetched
      rw [← h.head] at hfetched
      dsimp only
      rwa [hfinished]
  | fetched =>
      cases hstep
      refine ⟨count, { h with stack := ⟨count, ?_, hexecuted⟩ }⟩
      dsimp only
      rw [hfinished, h.slots count (Nat.le_refl _) hlt, List.getElem?_eq_getElem hlt]
      exact hnext (.loaded (List.getElem?_eq_getElem hlt))
  | loaded hitem =>
      cases hstep
      refine ⟨count, { h with stack := ⟨count + 1, ?_, ?_⟩ }⟩
      · dsimp only
        rw [hfinished]
        exact hnext .called
      · dsimp only
        rw [hexecuted, List.take_add_one, hitem]
        rfl
  | called =>
      cases hstep
      refine ⟨count, { h with stack := ⟨count + 1, ?_, hexecuted⟩ }⟩
      dsimp only
      rw [hfinished]
      exact hnext .returned
  | returned =>
      cases hstep
      refine ⟨count + 1, { h with
        le := hlt
        room := by
          rw [Nat.add_right_comm]
          exact Nat.lt_succ_of_lt hroom
        head := Nat.mod_add_mod _ _ _
        slots := fun i hi => h.slots i (by omega)
        stack := ⟨count + 1, ?_, hexecuted⟩
        pushers := fun pid => (h.pushers pid).succ }⟩
      dsimp only
      rw [hfinished]
      exact .idle (List.forall_mem_cons.mpr ⟨Or.inl rfl, fun frame hframe =>
        Or.inl (htests frame hframe)⟩)

/-- A step of a run. -/
theorem Ordered.stepRun (h : q.Ordered count) (hcareful : q.Careful .run)
    (hstep : q.stepRun = some q') : ∃ count, q'.Ordered count := by
  obtain ⟨called, hstack, hexecuted⟩ := h.stack
  generalize hframes : q.frames = frames at hstack
  generalize hfinished : q.finished = finished at hstack
  cases hstack with
  | idle waiting =>
      cases frames with
      | nil =>
          rw [Queue.stepRun, hframes] at hstep
          cases hstep
      | cons frame rest =>
          have hrest : Stack q.head q.pushed count rest count q.finished := by
            rw [hfinished]
            exact .idle fun frame hframe => waiting frame (List.mem_cons_of_mem _ hframe)
          exact ⟨count, h.stepWaiting hcareful hframes (waiting frame List.mem_cons_self) hrest
            hexecuted hstep⟩
  | @active above below busy _ _ lt waiting hbusy tests =>
      subst hfinished
      cases above with
      | nil => exact h.stepBusy hframes lt hbusy tests hexecuted hstep
      | cons frame above =>
          have hrest := Stack.active lt
            (fun frame hframe => waiting frame (List.mem_cons_of_mem _ hframe)) hbusy tests
          exact ⟨count, h.stepWaiting hcareful hframes (waiting frame List.mem_cons_self) hrest
            hexecuted hstep⟩

theorem Empty.ordered (h : q.Empty) : q.Ordered 0 where
  le := Nat.zero_le _
  room := by
    rw [h.pushed]
    exact Nat.lt_add_left 0 (Nat.succ_pos 31)
  head := h.head
  tail := by rw [h.tail, h.pushed]; rfl
  slots := fun i _ hi => by
    rw [h.pushed] at hi
    exact absurd hi (Nat.not_lt_zero i)
  stack := ⟨0, by
    rw [h.frames, h.finished]
    exact .idle (List.forall_mem_nil _), by rw [h.executed]; rfl⟩
  pushers := fun pid => by rw [h.pushers pid]; trivial
  alone := fun pid _ hpid => by
    rw [h.pushers pid] at hpid
    exact hpid.elim
  rejections := by rw [h.rejections]; exact List.forall_mem_nil _
  leftovers := by rw [h.leftovers]; exact List.forall_mem_nil _

/-- A step that is taken with care. -/
theorem Ordered.step (h : q.Ordered count) (hstep : CarefulStep q event q') :
    ∃ count, q'.Ordered count := by
  obtain ⟨hstep, hcareful⟩ := hstep
  cases event with
  | callPush pid item =>
      rw [AnyStep, Queue.step] at hstep
      split at hstep
      · cases hstep
        exact ⟨count, { h with
          pushers := forall_setPusher trivial fun pid' _ => h.pushers pid'
          alone := h.alone_setPusher fun hstarted => hstarted.elim }⟩
      · cases hstep
  | push pid => exact ⟨count, h.stepPush hcareful hstep⟩
  | callRun =>
      cases hstep
      obtain ⟨called, hstack, hexecuted⟩ := h.stack
      exact ⟨count, { h with stack := ⟨called, hstack.cons (Or.inl rfl), hexecuted⟩ }⟩
  | run => exact h.stepRun hcareful hstep

/-- All steps of a run are taken with care. -/
theorem Ordered.run {events : List (Event α)} (h : q.Ordered count)
    (hrun : Run CarefulStep q events q') : ∃ count, q'.Ordered count :=
  hrun.invariant_state (fun q => ∃ count, Ordered q count) ⟨count, h⟩
    fun _ _ _ ⟨_, hordered⟩ hstep => hordered.step hstep

/-! ## A run that is left alone -/

/-- One run on the processor. -/
def alone (q : Queue α) (frame : Frame α) : Queue α := { q with frames := [frame] }

/-- A run may go on while those that it interrupts have not begun their tests. -/
theorem careful_tests {frame : Frame α} {frames : List (Frame α)}
    (hframes : q.frames = frame :: frames) (htests : ∀ other ∈ frames, other = .test) :
    q.Careful .run := by
  intro head rest hrest _ other hother
  rw [hframes] at hrest
  rw [← (List.cons.inj hrest).2] at hother
  exact htests other hother

theorem careful_single {frame : Frame α} (hframes : q.frames = [frame]) : q.Careful .run :=
  careful_tests hframes nofun

/-- An item is taken off the queue. -/
def taken (q : Queue α) (item : α) : Queue α :=
  { q with
    head := (q.head + 1) % workQueueSize
    executed := q.executed ++ [item]
    finished := q.finished + 1 }

/-- Seven steps of a run are one turn of its loop. -/
theorem run_turn {item : α} (hne : q.head ≠ q.tail) (hitem : q.slots q.head = some item) :
    Run CarefulStep (q.alone .test) (List.replicate 7 .run) ((q.taken item).alone .test) := by
  have hstep {q q' : Queue α} {frame frame' : Frame α}
      (h : (q.alone frame).stepRun = some (q'.alone frame')) :
      CarefulStep (q.alone frame) .run (q'.alone frame') := ⟨h, careful_single rfl⟩
  have htested : (q.alone (.tested q.head)).stepRun = some (q.alone .entered) := if_pos hne
  have hfetched : (q.alone (.fetched q.head)).stepRun =
      some (q.alone (.loaded q.head (some item))) := by
    rw [← hitem]
    rfl
  have hcalled : (q.alone (.loaded q.head (some item))).stepRun =
      some ({ q with executed := q.executed ++ [item] }.alone (.called q.head)) := rfl
  have hreturned : ({ q with executed := q.executed ++ [item] }.alone (.called q.head)).stepRun =
      some ({ q with executed := q.executed ++ [item], finished := q.finished + 1 }.alone
        (.returned q.head)) := rfl
  have hwritten : ({ q with executed := q.executed ++ [item], finished := q.finished + 1 }.alone
      (.returned q.head)).stepRun = some ((q.taken item).alone .test) := rfl
  exact .cons (@hstep q q .test (.tested q.head) rfl) <| .cons (hstep htested) <|
    .cons (@hstep q q .entered (.fetched q.head) rfl) <| .cons (hstep hfetched) <|
    .cons (hstep hcalled) <| .cons (hstep hreturned) <| .cons (hstep hwritten) .nil

/-- A run that is left alone executes everything that was accepted, and returns. -/
theorem Ordered.drains (h : (q.alone .test).Ordered count) :
    ∃ n q', Run CarefulStep (q.alone .test) (List.replicate n .run) q' ∧ q'.frames = [] ∧
      q'.pushed = q.pushed ∧ q'.executed = q.pushed := by
  generalize hleft : q.pushed.length - count = left
  induction left generalizing q count with
  | zero =>
      have hle : count ≤ q.pushed.length := h.le
      have hempty : count = q.pushed.length := by omega
      obtain ⟨called, hstack, hexecuted⟩ := h.stack
      have hsame : q.head = q.tail := by
        rw [show q.head = count % workQueueSize from h.head, hempty]
        exact h.tail.symm
      have hreturn : (q.alone (.tested q.head)).stepRun = some { q with
          frames := []
          leftovers := q.leftovers ++ [q.pushed.length - q.executed.length] } :=
        if_neg fun hne => hne hsame
      refine ⟨2, _, .cons (⟨rfl, careful_single rfl⟩ :
        CarefulStep (q.alone .test) .run (q.alone (.tested q.head)))
          (.cons ⟨hreturn, careful_single rfl⟩ .nil), rfl, rfl, ?_⟩
      have hcalled := hstack.eq_of_empty hempty
      rw [hcalled, hempty] at hexecuted
      exact hexecuted.trans List.take_length
  | succ left ih =>
      have hle : count ≤ q.pushed.length := h.le
      have hroom : q.pushed.length < count + workQueueSize := h.room
      have hlt : count < q.pushed.length := by omega
      have hhead : q.head = count % workQueueSize := h.head
      have htail : q.tail = q.pushed.length % workQueueSize := h.tail
      have hitem : q.slots q.head = some q.pushed[count] := by
        rw [hhead, ← List.getElem?_eq_getElem hlt]
        exact h.slots count (Nat.le_refl _) hlt
      have hne : q.head ≠ q.tail := by
        rw [hhead, htail]
        exact place_ne hlt hroom
      have hturn := run_turn hne hitem
      obtain ⟨count', hcount'⟩ := h.run hturn
      have hhead' : (q.head + 1) % workQueueSize = count' % workQueueSize := hcount'.head
      have hle' : count' ≤ q.pushed.length := hcount'.le
      have hroom' : q.pushed.length < count' + workQueueSize := hcount'.room
      have hnext : count' = count + 1 := by
        rw [hhead] at hhead'
        unfold workQueueSize at *
        omega
      have hleft' : q.pushed.length - count' = left := by omega
      obtain ⟨n, q', hrest, hframes, hpushed, hexecuted⟩ := ih hcount' hleft'
      refine ⟨7 + n, q', ?_, hframes, hpushed, hexecuted⟩
      rw [← List.replicate_append_replicate]
      exact hturn.append hrest

end Queue

/-! ## Runs with care -/

variable {q₀ : Queue α} {events : List (Event α)}

/-- The handlers are called in the order of the items, each of them once: what was executed are the
first of the accepted items, a run that ends leaves nothing, and a run that is left alone executes
all of them and ends.  An item is rejected only when 31 others are not finished. -/
structure Queue.InOrder (q : Queue α) : Prop where
  order : q.executed <+: q.pushed
  leftovers : ∀ n ∈ q.leftovers, n = 0
  drains : q.frames = [.test] → ∃ n q', Run CarefulStep q (List.replicate n .run) q' ∧
    q'.frames = [] ∧ q'.pushed = q.pushed ∧ q'.executed = q.pushed
  rejections : ∀ n ∈ q.rejections, n = workQueueSize - 1

/-- Every run that is taken with care keeps the order of the items. -/
theorem inOrder_of_careful (hempty : q₀.Empty) (hrun : Run CarefulStep q₀ events q) :
    q.InOrder := by
  obtain ⟨count, h⟩ := hempty.ordered.run hrun
  obtain ⟨called, -, hexecuted⟩ := h.stack
  constructor
  · rw [hexecuted]
    exact List.take_prefix called q.pushed
  · exact h.leftovers
  · intro hframes
    have hq : q = q.alone .test := by
      rw [Queue.alone, ← hframes]
    rw [hq] at h
    have hdrains := h.drains
    rwa [← hq] at hdrains
  · exact fun n hn => Nat.eq_sub_of_add_eq (h.rejections n hn)

end

/-! ## Examples of runs -/

/-- A queue before anything happens. -/
def bootQueue : Queue Nat := ⟨fun _ => none, 0, 0, [], fun _ => .idle, [], [], 0, [], []⟩

theorem bootQueue_empty : bootQueue.Empty :=
  ⟨rfl, rfl, rfl, fun _ => rfl, rfl, rfl, rfl, rfl, rfl⟩

/-- The calls and steps that push an item. -/
def pushSteps (item : Nat) : List (Event Nat) :=
  [.callPush 0 item, .push 0, .push 0, .push 0, .push 0]

/-- The queue with one more item. -/
def Queue.accepted (q : Queue Nat) (item : Nat) : Queue Nat :=
  { q with
    slots := fun i => if i = q.tail then some item else q.slots i
    tail := (q.tail + 1) % workQueueSize
    pushed := q.pushed ++ [item] }

section

variable {q : Queue Nat} {pid item : Nat} {p p' : Pusher Nat}

theorem setPusher_twice : (q.setPusher pid p).setPusher pid p' = q.setPusher pid p' := by
  have hsame : (fun i => if i = pid then p' else if i = pid then p else q.pushers i) =
      fun i => if i = pid then p' else q.pushers i := by
    funext i
    split <;> rfl
  exact congrArg (fun pushers => { q with pushers := pushers }) hsame

theorem setPusher_idle (h : ∀ pid, q.pushers pid = .idle) : q.setPusher pid .idle = q := by
  have hsame : (fun i => if i = pid then Pusher.idle else q.pushers i) = q.pushers := by
    funext i
    rw [h i, ite_self]
  exact congrArg (fun pushers => { q with pushers := pushers }) hsame

/-- A call of `push_work` on its own is careful. -/
theorem careful_push (hframes : q.frames = []) (hidle : ∀ pid, q.pushers pid = .idle) :
    (q.setPusher pid p).Careful (.push pid) := by
  constructor
  · intro item hstarted pid' hengaged
    by_cases hpid : pid' = pid
    · rw [hpid, hstarted] at hengaged
      exact hengaged
    · have hother : (q.setPusher pid p).pushers pid' = .idle := (if_neg hpid).trans (hidle pid')
      rw [hother] at hengaged
      exact hengaged
  · intro item tail _ _ head hmem
    change Frame.returned head ∈ q.frames at hmem
    rw [hframes] at hmem
    cases hmem

/-- Where there is room an item is pushed. -/
theorem run_pushSteps (hframes : q.frames = []) (hidle : ∀ pid, q.pushers pid = .idle)
    (hroom : (q.tail + 1) % workQueueSize ≠ q.head) :
    Run CarefulStep q (pushSteps item) (q.accepted item) := by
  have hcalled : CarefulStep q (.callPush 0 item) (q.setPusher 0 (.started item)) := by
    refine ⟨?_, trivial⟩
    rw [AnyStep, Queue.step, hidle 0]
  have hread : CarefulStep (q.setPusher 0 (.started item)) (.push 0)
      (q.setPusher 0 (.tailRead item q.tail)) :=
    ⟨congrArg some setPusher_twice, careful_push hframes hidle⟩
  have hadmitted : CarefulStep (q.setPusher 0 (.tailRead item q.tail)) (.push 0)
      (q.setPusher 0 (.admitted item q.tail)) :=
    ⟨(if_neg hroom).trans (congrArg some setPusher_twice), careful_push hframes hidle⟩
  -- The queue with the item in its place.
  let q' : Queue Nat := { q with slots := fun i => if i = q.tail then some item else q.slots i }
  have hstored : CarefulStep (q.setPusher 0 (.admitted item q.tail)) (.push 0)
      (q'.setPusher 0 (.stored item q.tail)) := by
    refine ⟨?_, careful_push hframes hidle⟩
    change some ({ (q.setPusher 0 (.admitted item q.tail)).setPusher 0 (.stored item q.tail) with
      slots := q'.slots } : Queue Nat) = _
    rw [setPusher_twice]
    rfl
  have hdone : CarefulStep (q'.setPusher 0 (.stored item q.tail)) (.push 0) (q.accepted item) := by
    refine ⟨?_, careful_push hframes hidle⟩
    change some ({ (q'.setPusher 0 (.stored item q.tail)).setPusher 0 .idle with
      tail := (q.tail + 1) % workQueueSize
      pushed := q.pushed ++ [item] } : Queue Nat) = _
    rw [setPusher_twice, @setPusher_idle q' 0 hidle]
    rfl
  exact .cons hcalled (.cons hread (.cons hadmitted (.cons hstored (.cons hdone .nil))))

end

/-- Steps that can be made one after the other are a run. -/
theorem run_of_foldlM {α : Type} {step : Queue α → Event α → Option (Queue α)}
    {R : Queue α → Event α → Queue α → Prop}
    (hstep : ∀ q event q', step q event = some q' → R q event q') {events : List (Event α)}
    {q q' : Queue α} (h : events.foldlM step q = some q') : Run R q events q' := by
  induction events generalizing q with
  | nil =>
      cases h
      exact .nil
  | cons event events ih =>
      rw [List.foldlM_cons] at h
      obtain ⟨q₁, hfirst, hrest⟩ := Option.bind_eq_some_iff.mp h
      exact .cons (hstep q event q₁ hfirst) (ih hrest)

/-- A run is at the test of its loop. -/
def Frame.isTest {α : Type} : Frame α → Bool
  | .test => true
  | _ => false

theorem Frame.eq_test {α : Type} {frame : Frame α} (h : frame.isTest = true) : frame = .test := by
  cases frame with
  | test => rfl
  | _ => cases h

/-- A step of the idle loop that interrupts only runs that have not begun their tests. -/
def Queue.turn {α : Type} (q : Queue α) : Event α → Option (Queue α)
  | .callRun => q.step .callRun
  | .run => if q.frames.tail.all Frame.isTest then q.step .run else none
  | _ => none

theorem careful_turn {α : Type} (q : Queue α) (event : Event α) (q' : Queue α)
    (h : q.turn event = some q') : CarefulStep q event q' := by
  cases event with
  | callPush | push => cases h
  | callRun => exact ⟨h, trivial⟩
  | run =>
      rw [Queue.turn] at h
      split at h
      · next htests =>
          refine ⟨h, fun head rest hframes _ other hother => ?_⟩
          rw [hframes] at htests
          exact Frame.eq_test (List.all_eq_true.mp htests other hother)
      · cases h

/-- Two items are pushed.  An interrupt comes before the idle loop has begun its test, and the
items are executed in it. -/
theorem inOrder_of_careful_turn : ∃ q, Run CarefulStep bootQueue
    (pushSteps 7 ++ (pushSteps 8 ++ ([.callRun, .callRun] ++ .replicate 18 .run))) q ∧
      q.executed = [7, 8] ∧ q.InOrder := by
  have hpushed : Run CarefulStep bootQueue (pushSteps 7) (bootQueue.accepted 7) :=
    run_pushSteps rfl (fun _ => rfl) (by decide)
  have hpushed' : Run CarefulStep (bootQueue.accepted 7) (pushSteps 8)
      ((bootQueue.accepted 7).accepted 8) :=
    run_pushSteps rfl (fun _ => rfl) (by decide)
  -- The interrupted run finds the queue empty in the last two steps.
  have hvalue : (([.callRun, .callRun] ++ .replicate 18 .run).foldlM Queue.turn
      ((bootQueue.accepted 7).accepted 8)).map Queue.executed = some [7, 8] := by
    decide +kernel
  obtain ⟨q, hturns, hexecuted⟩ := Option.map_eq_some_iff.mp hvalue
  have hrun := hpushed.append (hpushed'.append (run_of_foldlM careful_turn hturns))
  exact ⟨q, hrun, hexecuted, inOrder_of_careful bootQueue_empty hrun⟩

/-- An interrupt comes while a handler is running. -/
def interruptedSteps : List (Event Nat) :=
  pushSteps 7 ++ [.callRun, .run, .run, .run, .run, .run] ++ [.callRun, .run, .run, .run, .run, .run]

/-- The handler is called a second time. -/
theorem not_inOrder : ¬∀ (q : Queue Nat) (events : List (Event Nat)),
    Run AnyStep bootQueue events q → q.InOrder := by
  intro h
  have hvalue : (interruptedSteps.foldlM Queue.step bootQueue).map
      (fun q => (q.executed, q.pushed)) = some ([7, 7], [7]) := by decide +kernel
  obtain ⟨q, hsteps, hq⟩ := Option.map_eq_some_iff.mp hvalue
  have horder := (h q _ (run_of_foldlM (fun _ _ _ hstep => hstep) hsteps)).order
  obtain ⟨hexecuted, hpushed⟩ := Prod.mk.inj hq
  rw [hexecuted, hpushed] at horder
  exact absurd horder.length_le (by decide)

end PureOS.Smp

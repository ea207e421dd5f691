import Mathlib.Logic.Function.Iterate
import PureOS.Process.RoundRobin

set_option autoImplicit false

/-!
# Process: the timer (`syscall.rs`)

Every fifth tick takes the CPU away from a process that does not give it back by itself, unless
that is the shell.  A runnable process is at most so many slots ahead, and so many times five
ticks.
-/

namespace PureOS.Process

open PureOS.Foundation

/-- The kernel and `PREEMPT_QUANTUM`. -/
structure Clock where
  kernel : Kernel
  quantum : Nat

namespace Clock

/-- `timer_tick_handler`. -/
def timerTickHandler (c : Clock) : Clock :=
  let k := { c.kernel with tickCount := wrappingAdd c.kernel.tickCount 1 }
  let current := k.current
  if current = 0 then ⟨k, c.quantum⟩
  else
    let quantum := wrappingAdd c.quantum 1
    if quantum ≥ 5 then
      match k.table.nextRunnableAfter current with
      | some next =>
          if next ≠ current then ⟨k.switchContext current next, 0⟩ else ⟨k, 0⟩
      | none => ⟨k, 0⟩
    else ⟨k, quantum⟩

/-- A step of the system: a tick, or what the processes and the kernel do between two ticks.  It
says whether it is a tick, and which process is switched to. -/
inductive Timed (c : Clock) : Bool × Option Pid → Clock → Prop
  | between {l : Option Pid} {k' : Kernel} (step : Kernel.Scheduled c.kernel l k') :
      Timed c (false, l) ⟨k', c.quantum⟩
  | tick : Timed c (true, c.kernel.switchedTo c.timerTickHandler.kernel) c.timerTickHandler

/-- A step that leaves `p` runnable.  No tick comes while the shell runs. -/
structure TimedReady (p : Pid) (c : Clock) (e : Bool × Option Pid) (c' : Clock) : Prop where
  step : Timed c e c'
  ready : (c'.kernel.table p).state = .runnable
  preempts : e.1 = true → c.kernel.current ≠ 0

/-- The ticks of a run. -/
def ticks (h : List (Bool × Option Pid)) : Nat := (h.filter Prod.fst).length

/-- The switches of a run. -/
def switched (h : List (Bool × Option Pid)) : List Pid := Kernel.switches (h.map Prod.snd)

variable {c c' c₀ : Clock} {p : Pid} {e : Bool × Option Pid} {h : List (Bool × Option Pid)}

theorem ticks_append (h h' : List (Bool × Option Pid)) : ticks (h ++ h') = ticks h + ticks h' := by
  simp [ticks]

theorem switched_append (h h' : List (Bool × Option Pid)) :
    switched (h ++ h') = switched h ++ switched h' := by
  rw [switched, List.map_append]
  exact List.reduceOption_append _ _

/-- What a tick does: the process in turn gets the CPU with every fifth one. -/
theorem timerTickHandler_eq (c : Clock) (hcurrent : c.kernel.current ≠ 0)
    (hquantum : c.quantum < 5) :
    let k := { c.kernel with tickCount := wrappingAdd c.kernel.tickCount 1 }
    c.timerTickHandler =
      if c.quantum = 4 then ⟨k.blockCurrent k.current, 0⟩ else ⟨k, c.quantum + 1⟩ := by
  have hnext : wrappingAdd c.quantum 1 = c.quantum + 1 := wrappingAdd_of_lt (by
    have hword : 5 < wordSize := by decide
    omega)
  rw [timerTickHandler]
  dsimp only
  rw [if_neg hcurrent, hnext]
  by_cases hfour : c.quantum = 4
  · rw [if_pos (by omega), if_pos hfour, Kernel.blockCurrent]
    dsimp only
    cases c.kernel.table.nextRunnableAfter c.kernel.current with
    | none => rfl
    | some next =>
        dsimp only
        split
        · rfl
        · next hsame =>
            rw [not_not.mp hsame, Kernel.switchContext, if_pos rfl]
  · rw [if_neg (by omega), if_neg hfour]

/-- For the scheduler a tick is a step as the others are. -/
theorem Timed.scheduled (step : Timed c e c') (hquantum : c.quantum < 5)
    (hcurrent : e.1 = true → c.kernel.current ≠ 0) :
    Kernel.Scheduled c.kernel e.2 c'.kernel := by
  cases step with
  | between step => exact step
  | tick =>
      rw [timerTickHandler_eq c (hcurrent rfl) hquantum]
      split
      · exact .of_block rfl
      · exact .of_work rfl

/-- A step and the quantum: of five ticks one switches, if a process waits. -/
theorem TimedReady.ticks_le (step : TimedReady p c e c') (hquantum : c.quantum < 5)
    (waits : c.kernel.current ≠ p) :
    c'.quantum < 5 ∧ ticks [e] + c.quantum ≤ 5 * (switched [e]).length + c'.quantum := by
  obtain ⟨step, ready, hcurrent⟩ := step
  cases step with
  | between step =>
      refine ⟨hquantum, ?_⟩
      simp [ticks]
  | tick =>
      rw [timerTickHandler_eq c (hcurrent rfl) hquantum] at ready ⊢
      by_cases hfour : c.quantum = 4
      · rw [if_pos hfour] at ready ⊢
        rw [Kernel.blockCurrent_state] at ready
        obtain ⟨next, hnext⟩ := Table.exists_nextRunnableAfter ready waits
        have hcurrent' := Kernel.blockCurrent_eq_switch
          (k := { c.kernel with tickCount := wrappingAdd c.kernel.tickCount 1 }) hnext
        -- The process in turn is another one, since the one that waits comes before the current.
        have hne : next ≠ c.kernel.current := by
          rintro rfl
          exact Nat.lt_irrefl _ (Table.ahead_nextRunnableAfter_lt hnext ready waits)
        refine ⟨show 0 < 5 by decide, ?_⟩
        rw [Kernel.switchedTo, hcurrent', if_neg hne, hfour]
        simp [ticks, switched, Kernel.switches, List.reduceOption]
      · rw [if_neg hfour]
        refine ⟨by dsimp only; omega, ?_⟩
        simp [ticks]
        omega

/-- Over a run: the ticks are five for each switch, and those that the quantum has counted. -/
theorem ticks_le_of_run (hquantum : c₀.quantum < 5) (waits : c₀.kernel.current ≠ p)
    (run : Run (TimedReady p) c₀ h c) (notYet : p ∉ switched h) :
    c.quantum < 5 ∧ c.kernel.current ≠ p ∧
      Run (Kernel.KeepsReady p) c₀.kernel (h.map Prod.snd) c.kernel ∧
      ticks h + c₀.quantum ≤ 5 * (switched h).length + c.quantum := by
  induction run with
  | nil => exact ⟨hquantum, waits, .nil, by simp [ticks]⟩
  | @snoc h c c' e _ last ih =>
      rw [switched_append, List.mem_append, not_or] at notYet
      obtain ⟨hbefore, hlast⟩ := notYet
      obtain ⟨hq, hwaits, hrun, hle⟩ := ih hbefore
      have hscheduled := last.step.scheduled hq last.preempts
      have hne : e.2 ≠ some p := fun heq => hlast (by
        simp [switched, Kernel.switches, List.reduceOption, heq])
      obtain ⟨hq', hstep⟩ := last.ticks_le hq hwaits
      refine ⟨hq', hscheduled.waits hwaits hne, ?_, ?_⟩
      · rw [List.map_append]
        exact hrun.snoc ⟨hscheduled, last.ready⟩
      · rw [ticks_append, switched_append, List.length_append]
        omega

/-- While a process is runnable without running and the shell does not run, fewer than five ticks
for each slot pass before the process gets the CPU, whatever the others do. -/
theorem preemption_bound (hquantum : c₀.quantum < 5) (waits : c₀.kernel.current ≠ p)
    (run : Run (TimedReady p) c₀ h c) (notYet : p ∉ switched h) : ticks h < 5 * maxProcesses := by
  obtain ⟨hq, -, hrun, hle⟩ := ticks_le_of_run hquantum waits run notYet
  have hswitches := Kernel.switches_length_lt waits hrun notYet
  change (switched h).length < maxProcesses at hswitches
  omega

/-- Ticks that come one after the other, with nothing done between them. -/
theorem run_of_ticks (c : Clock) (n : Nat)
    (preempts : ∀ i, i < n → (timerTickHandler^[i] c).kernel.current ≠ 0)
    (ready : ∀ i, i < n → ((timerTickHandler^[i + 1] c).kernel.table p).state = .runnable) :
    Run (TimedReady p) c
      ((List.range n).map fun i =>
        (true, (timerTickHandler^[i] c).kernel.switchedTo (timerTickHandler^[i + 1] c).kernel))
      (timerTickHandler^[n] c) := by
  induction n with
  | zero => exact .nil
  | succ n ih =>
      have hbefore := ih (fun i hi => preempts i (Nat.lt_succ_of_lt hi))
        fun i hi => ready i (Nat.lt_succ_of_lt hi)
      have hready := ready n (Nat.lt_succ_self n)
      have htick := Timed.tick (c := timerTickHandler^[n] c)
      rw [List.range_succ, List.map_append]
      rw [Function.iterate_succ_apply'] at hready ⊢
      refine .snoc hbefore ⟨?_, hready, fun _ => preempts n (Nat.lt_succ_self n)⟩
      simpa only [Function.iterate_succ_apply'] using htick

/-- The shell does nothing, and three processes are runnable of which one runs. -/
def busy : Clock where
  kernel :=
    { table := fun i => if 1 ≤ i.val ∧ i.val ≤ 3 then { state := .runnable } else .empty
      current := 1
      mem := ⟨fun _ addr => addr, fun _ => 0⟩
      tickCount := 0 }
  quantum := 3

/-- The second tick gives the CPU to process 2, and process 3 waits for four ticks more. -/
theorem preemption_bound_busy :
    ∃ h c, Run (TimedReady 3) busy h c ∧ ticks h = 6 ∧ switched h = [2] ∧
      ticks h < 5 * maxProcesses := by
  have hrun := run_of_ticks (p := 3) busy 6 (by decide +kernel) (by decide +kernel)
  have hswitched : switched ((List.range 6).map fun i => (true,
      (timerTickHandler^[i] busy).kernel.switchedTo (timerTickHandler^[i + 1] busy).kernel)) =
        [2] := by
    decide +kernel
  refine ⟨_, _, hrun, rfl, hswitched, ?_⟩
  refine preemption_bound (p := 3) (by decide) (by decide) hrun ?_
  rw [hswitched]
  decide

end Clock

end PureOS.Process

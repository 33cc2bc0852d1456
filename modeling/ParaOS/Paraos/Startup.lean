import ParaOS.Paraos.Bootboot
import ParaOS.Paraos.Kernel
import ParaOS.Paraos.Serial

/-!
# `_start`: what the machine says while it boots

Every core enters `_start` and from there `Kernel::run`, with a closure that gives the
memory map to the allocator and prints how much of it there is.  Here the run of
`ParaOS.Paraos.Kernel` is seen access by access: a core that has something to say does
so byte by byte, and takes its next step in `run` when it is through.

`write_str` holds no lock while it writes, so strings of different cores may be mixed.
In `_start` they are not, whatever the order of steps: only the bootstrap core has
anything to say, and what has been said is at all times the beginning of one text
(`boot_output`).  The line about memory is out before any core is past the barrier, and
the greeting comes after all cores have arrived there.

### What is load-bearing

That only the bootstrap core has anything to say is not a condition but a result: it
rests on `hboot`, as the greeting is printed by whoever has the identifier of the
bootstrap processor, and on the barrier, as the closure is run there and nowhere
else.  `quiet` and what a panic has to say may be anything.

Nothing is asked of the UART.  `write_str` and `init` write without looking, and the
polls of `write_char` do not occur in `_start`; what the transmitter makes of the
bytes is for `ParaOS.Paraos.Uart`.

A run is a refinement of that of `ParaOS.Paraos.Kernel`: dropping the port from a
configuration turns each step into one of `run`, or into none (`kernelOf_step`), and
so all that is known there is known here.
-/

namespace ParaOS.Paraos

open Machine

/-! ## The port

What is done at the port is a list of steps, and a core that is through with its
list goes on.  A guard that is dropped at the end of its statement is two steps,
`lock` and `unlock`, since another core may come in between. -/

/-- What is done at a `Port`. -/
inductive PortStep where
  /-- `self.0.lock()` -/
  | lock
  /-- the guard is dropped -/
  | unlock
  /-- `is_transmit_empty`, as often as it is read in the loop of `write_char` -/
  | poll
  | outb (port : UInt16) (byte : UInt8)
  deriving DecidableEq

/-- `COM1` -/
def com1 : UInt16 := 0x3f8

/-- `Serial::init` -/
def initSteps : List PortStep :=
  [.lock, .unlock,
    .outb (com1 + 1) 0x00,
    .outb (com1 + 3) 0x80,
    .outb (com1 + 0) 0x03,
    .outb (com1 + 1) 0x00,
    .outb (com1 + 3) 0x03,
    .outb (com1 + 2) 0xC7,
    .outb (com1 + 4) 0x0B,
    .outb (com1 + 4) 0x0F]

/-- `write_str` -/
def writeStrSteps (s : String) : List PortStep :=
  .lock :: .unlock :: (bytesOf s).map (.outb (com1 + 0))

/-- `core::fmt::write`, which calls `write_str` for one piece after the other. -/
def fmtSteps (pieces : List String) : List PortStep := pieces.flatMap writeStrSteps

/-- The bytes that are written, with the ports they are written to. -/
def outbs (steps : List PortStep) : List (UInt16 × UInt8) :=
  steps.filterMap fun
    | .outb port byte => some (port, byte)
    | _ => none

/-- Bytes of one list of steps after another. -/
theorem outbs_append (steps steps' : List PortStep) :
    outbs (steps ++ steps') = outbs steps ++ outbs steps' :=
  List.filterMap_append

/-- A port: who holds its mutex, and what has been written to its registers by whom. -/
structure Wire (ι : Type) where
  mutex : Option ι
  written : List (ι × UInt16 × UInt8)

/-- What a core does at a port. -/
inductive PortStep.Does {ι : Type} (i : ι) : PortStep → Wire ι → Wire ι → Prop where
  | lock {w : Wire ι} : w.mutex = none → Does i .lock w { w with mutex := some i }
  | unlock {w : Wire ι} : Does i .unlock w { w with mutex := none }
  | poll {w : Wire ι} : Does i .poll w w
  | outb {w : Wire ι} {port : UInt16} {byte : UInt8} :
      Does i (.outb port byte) w { w with written := w.written ++ [(i, port, byte)] }

/-- What is written in a step is written by the core that takes it. -/
theorem PortStep.Does.exists_written {ι : Type} {i : ι} {step : PortStep} {w w' : Wire ι}
    (h : step.Does i w w') :
    ∃ new, w'.written = w.written ++ new ∧ (∀ x ∈ new, x.1 = i) ∧
      new.map Prod.snd = outbs [step] := by
  cases h with
  | lock => exact ⟨[], (List.append_nil _).symm, nofun, rfl⟩
  | unlock => exact ⟨[], (List.append_nil _).symm, nofun, rfl⟩
  | poll => exact ⟨[], (List.append_nil _).symm, nofun, rfl⟩
  | outb =>
      refine ⟨_, rfl, fun x hx => ?_, rfl⟩
      rw [List.mem_singleton.mp hx]

/-- What was to be written before some steps is written, if only the last of them are
still to be done. -/
theorem prefix_of_pending {written before : List (UInt16 × UInt8)} {todo steps : List PortStep}
    (h : written ++ outbs todo = before ++ outbs steps) (hpending : todo <:+ steps) :
    before <+: written := by
  obtain ⟨done, rfl⟩ := hpending
  rw [outbs_append, ← List.append_assoc] at h
  exact ⟨outbs done, (List.append_cancel_right h).symm⟩

/-! ## `_start`

A core has a stage of `run` and a list of port steps to do there.  It takes a step
of `run` only when the list is empty, and gets the list of the next stage with it. -/

/-- The cores, the information page, the allocator, and what a panic has to say. -/
structure Computer (ι σ : Type) extends Cores ι where
  overflowChecks : Bool
  bootboot : Bootboot
  /-- `LockedHeap::empty` -/
  emptyHeap : σ
  addToHeap : σ → Word → Word → Option σ
  /-- `stats_total_bytes` -/
  totalBytes : σ → ℕ
  /-- the pieces of a `PanicInfo` -/
  panicInfo : List String

variable {ι σ : Type}

/-- The heap after the loop of the closure. -/
def Computer.heap (M : Computer ι σ) : Option σ :=
  bootLoop M.overflowChecks M.addToHeap M.bootboot M.emptyHeap

/-- The closure of `_start`.  If the loop panics, `panic_print` does the rest. -/
def Computer.bootstrapInit (M : Computer ι σ) : List PortStep :=
  match M.heap with
  | some heap =>
      initSteps ++ fmtSteps ["Free memory: ", toString (M.totalBytes heap / (1024 * 1024)), "MB\n"]
  | none => initSteps ++ fmtSteps ("\n" :: M.panicInfo ++ ["\n"])

/-- What a core has to say when it gets to a stage of `run`. -/
def Computer.toSay (M : Computer ι σ) (i : ι) : Stage → List PortStep
  | .obtained => if M.isBootstrapCore i then initSteps else []
  | .initializing => M.bootstrapInit
  | .finished =>
      if M.isBootstrapCore i ∧ M.quiet = false then
        fmtSteps ["ParaOS [", toString (M.numCores i), " cores]\n"]
      else []
  | _ => []

/-- A core: where it is in `run`, and what it has still to do at the port. -/
structure Starter where
  stage : Stage
  todo : List PortStep

/-- What the cores share: what `run` shares, and the port. -/
structure Line (B : OnceBarrier ι) where
  kernel : Shared B
  wire : Wire ι

/-- `_start`, on one core.  There is no way on from a panic in the closure. -/
inductive Computer.start (M : Computer ι σ) (B : OnceBarrier ι) :
    Processes ι Starter (Line B) where
  | port {i : ι} {stage : Stage} {step : PortStep} {todo : List PortStep} {l : Line B}
      {w : Wire ι} :
      step.Does i l.wire w →
      M.start B i ⟨stage, step :: todo⟩ l ⟨stage, todo⟩ { l with wire := w }
  | run {i : ι} {stage stage' : Stage} {l : Line B} {sh : Shared B} :
      (stage = .initializing → M.heap.isSome = true) →
      run M.toCores B i stage l.kernel stage' sh →
      M.start B i ⟨stage, []⟩ l ⟨stage', M.toSay i stage'⟩ { l with kernel := sh }

variable {B : OnceBarrier ι}

/-- All cores before `_start`. -/
def power (B : OnceBarrier ι) : Config ι Starter (Line B) :=
  ⟨fun _ => ⟨.entry, []⟩, ⟨(boot B).shared, none, []⟩⟩

/-- What `ParaOS.Paraos.Kernel` sees of a configuration. -/
def kernelOf (c : Config ι Starter (Line B)) : Config ι Stage (Shared B) :=
  ⟨fun i => (c.own i).stage, c.shared.kernel⟩

/-! ## What is said

The text is a function of the stage of the bootstrap core.  It only grows from stage
to stage, so what has been written is a beginning of it at any time. -/

/-- What the bootstrap core has said when it is through with a stage. -/
def Computer.said (M : Computer ι σ) (b : ι) : Stage → List (UInt16 × UInt8)
  | .entry => []
  | .calling => []
  | .obtained => outbs initSteps
  | .finished => outbs (initSteps ++ M.bootstrapInit ++ M.toSay b .finished)
  | _ => outbs (initSteps ++ M.bootstrapInit)

/-- What is said on a step of `run` is what the next stage adds. -/
theorem Computer.said_step {M : Computer ι σ} {b : ι} {stage stage' : Stage} {sh sh' : Shared B}
    (hb : M.isBootstrapCore b) (h : ParaOS.Paraos.run M.toCores B b stage sh stage' sh') :
    M.said b stage' = M.said b stage ++ outbs (M.toSay b stage') := by
  have htoSay : M.toSay b .obtained = initSteps := if_pos hb
  cases h with
  | callOnce => rfl
  | given => rw [htoSay]; rfl
  | invoke => exact outbs_append _ _
  | returns => exact (List.append_nil _).symm
  | skip hi => exact absurd hb hi
  | wait => exact (List.append_nil _).symm
  | pass => exact (List.append_nil _).symm
  | greet => exact outbs_append _ _
  | finish => exact outbs_append _ _

/-- The rest of the text is said later. -/
theorem Computer.said_prefix_finished (M : Computer ι σ) (b : ι) (stage : Stage) :
    M.said b stage <+: M.said b .finished := by
  have hinit : outbs initSteps <+: outbs (initSteps ++ M.bootstrapInit ++ M.toSay b .finished) := by
    rw [outbs_append, outbs_append, List.append_assoc]
    exact List.prefix_append _ _
  have hclosure : outbs (initSteps ++ M.bootstrapInit) <+:
      outbs (initSteps ++ M.bootstrapInit ++ M.toSay b .finished) := by
    rw [outbs_append (initSteps ++ M.bootstrapInit)]
    exact List.prefix_append _ _
  cases stage with
  | entry => exact List.nil_prefix
  | calling => exact List.nil_prefix
  | obtained => exact hinit
  | finished => exact List.prefix_rfl
  | _ => exact hclosure

/-! ## Guards

The mutex is taken and released all the time.  It never keeps anybody waiting,
because nobody else is at the port. -/

/-- Every guard is dropped at once. -/
def Dropped : List PortStep → Prop
  | [] => True
  | .lock :: .unlock :: steps => Dropped steps
  | .poll :: steps => Dropped steps
  | .outb _ _ :: steps => Dropped steps
  | _ => False

/-- `init` drops its guard at once. -/
theorem Dropped.init {steps : List PortStep} (h : Dropped steps) : Dropped (initSteps ++ steps) := h

/-- Writing bytes takes no guard. -/
theorem Dropped.outbs {steps : List PortStep} (h : Dropped steps) (bytes : List UInt8) :
    Dropped (bytes.map (.outb (com1 + 0)) ++ steps) := by
  induction bytes with
  | nil => exact h
  | cons b bytes ih => exact ih

/-- Each piece of a text has a guard of its own, and drops it before a byte of the
piece is written. -/
theorem Dropped.fmtSteps {steps : List PortStep} (h : Dropped steps) (pieces : List String) :
    Dropped (fmtSteps pieces ++ steps) := by
  induction pieces with
  | nil => exact h
  | cons s pieces ih =>
      rw [Paraos.fmtSteps, List.flatMap_cons, List.append_assoc]
      exact ih.outbs (bytesOf s)

/-- So a text does. -/
theorem dropped_fmtSteps (pieces : List String) : Dropped (fmtSteps pieces) := by
  have hnil : Dropped [] := trivial
  have h := hnil.fmtSteps pieces
  rwa [List.append_nil] at h

/-- And all that a core does at a stage. -/
theorem Computer.dropped_toSay (M : Computer ι σ) (i : ι) (stage : Stage) :
    Dropped (M.toSay i stage) := by
  cases stage with
  | obtained =>
      rw [Computer.toSay]
      split_ifs
      · trivial
      · trivial
  | initializing =>
      rw [Computer.toSay, Computer.bootstrapInit]
      split
      · exact (dropped_fmtSteps _).init
      · exact (dropped_fmtSteps _).init
  | finished =>
      rw [Computer.toSay]
      split_ifs
      · exact dropped_fmtSteps _
      · trivial
  | _ => trivial

/-- The mutex is free, or the core that holds it is about to drop the guard. -/
def Guarded (b : ι) (mutex : Option ι) (todo : List PortStep) : Prop :=
  (mutex = none ∧ Dropped todo) ∨ ∃ steps, mutex = some b ∧ todo = .unlock :: steps ∧ Dropped steps

/-- Every step at the port keeps it. -/
theorem Guarded.step {b : ι} {step : PortStep} {todo : List PortStep} {w w' : Wire ι}
    (h : Guarded b w.mutex (step :: todo)) (hstep : step.Does b w w') :
    Guarded b w'.mutex todo := by
  cases hstep with
  | lock =>
      rcases h with ⟨-, hdropped⟩ | ⟨steps, -, heq, -⟩
      · cases todo with
        | nil => exact hdropped.elim
        | cons step todo =>
            cases step with
            | unlock => exact .inr ⟨todo, rfl, rfl, hdropped⟩
            | lock => exact hdropped.elim
            | poll => exact hdropped.elim
            | outb port byte => exact hdropped.elim
      · cases heq
  | unlock =>
      rcases h with ⟨-, hdropped⟩ | ⟨steps, -, heq, hdropped⟩
      · exact hdropped.elim
      · cases heq
        exact .inl ⟨rfl, hdropped⟩
  | poll =>
      rcases h with ⟨hnone, hdropped⟩ | ⟨steps, -, heq, -⟩
      · exact .inl ⟨hnone, hdropped⟩
      · cases heq
  | outb =>
      rcases h with ⟨hnone, hdropped⟩ | ⟨steps, -, heq, -⟩
      · exact .inl ⟨hnone, hdropped⟩
      · cases heq

/-! ## The invariant

What has been written and what is still to be written at this stage make up what is
said by the end of it.  The rest of the invariant is there to keep this up: nobody
else writes, and the list is a rest of that of the stage. -/

/-- The core is through with `bootstrap_init`, if it is its turn. -/
def Stage.initialized : Stage → Bool
  | .ready => true
  | .waiting => true
  | .passed => true
  | .finished => true
  | _ => false

/-- A core other than the bootstrap core has nothing to say. -/
theorem Computer.toSay_eq_nil {M : Computer ι σ} {b i : ι}
    (hboot : ∀ i, M.isBootstrapCore i ↔ i = b) (hi : i ≠ b) {stage : Stage}
    (hinit : stage ≠ .initializing) : M.toSay i stage = [] := by
  have hnot : ¬ M.isBootstrapCore i := fun h => hi ((hboot i).mp h)
  cases stage with
  | obtained => exact if_neg hnot
  | initializing => exact absurd rfl hinit
  | finished => exact if_neg fun h => hnot h.1
  | _ => rfl

/-- What is known of a configuration if `b` is the bootstrap core. -/
structure Spoken (M : Computer ι σ) [Fintype ι] (b : ι) (c : Config ι Starter (Line B)) :
    Prop where
  kernel : Booting M.toCores b (kernelOf c)
  silent : ∀ i, i ≠ b → (c.own i).todo = []
  writer : ∀ w ∈ c.shared.wire.written, w.1 = b
  said : c.shared.wire.written.map Prod.snd ++ outbs (c.own b).todo = M.said b (c.own b).stage
  pending : (c.own b).todo <:+ M.toSay b (c.own b).stage
  guarded : Guarded b c.shared.wire.mutex (c.own b).todo
  heap : (c.own b).stage.initialized = true → M.heap.isSome = true

section

variable [Fintype ι] {M : Computer ι σ} {b i : ι} {c c' : Config ι Starter (Line B)}

/-- It holds when the machine is turned on. -/
theorem spoken_power (M : Computer ι σ) (b : ι) : Spoken M b (power B) where
  kernel := booting_boot M.toCores b
  silent _ _ := rfl
  writer := nofun
  said := rfl
  pending := List.nil_suffix
  guarded := .inl ⟨rfl, trivial⟩
  heap := nofun

/-- The bootstrap core at the port. -/
theorem Spoken.atPort (h : Spoken M b c) (hkernel : Booting M.toCores b (kernelOf c'))
    {stage : Stage} {todo todo' : List PortStep} (hsuffix : todo' <:+ todo)
    (hbefore : c.own b = ⟨stage, todo⟩) (hafter : c'.own b = ⟨stage, todo'⟩)
    (hothers : ∀ j, j ≠ b → c'.own j = c.own j) {new : List (ι × UInt16 × UInt8)}
    (hwritten : c'.shared.wire.written = c.shared.wire.written ++ new)
    (hwriter : ∀ w ∈ new, w.1 = b) (hsaid : new.map Prod.snd ++ outbs todo' = outbs todo)
    (hguarded : Guarded b c'.shared.wire.mutex todo') : Spoken M b c' where
  kernel := hkernel
  silent j hj := by
    rw [hothers j hj]
    exact h.silent j hj
  writer w hw := by
    rw [hwritten] at hw
    exact (List.mem_append.mp hw).elim (h.writer w) (hwriter w)
  said := by
    have hbefore' := h.said
    rw [hbefore] at hbefore'
    rw [hafter, hwritten, List.map_append, List.append_assoc, hsaid]
    exact hbefore'
  pending := by
    have hpending := h.pending
    rw [hbefore] at hpending
    rw [hafter]
    exact hsuffix.trans hpending
  guarded := by
    rw [hafter]
    exact hguarded
  heap hinit := by
    have hheap := h.heap
    rw [hbefore] at hheap
    rw [hafter] at hinit
    exact hheap hinit

/-- A step of `run` on the bootstrap core. -/
theorem Spoken.step_run (hb : M.isBootstrapCore b) (h : Spoken M b c)
    (hkernel : Booting M.toCores b (kernelOf c')) {stage stage' : Stage} {sh : Shared B}
    (hbefore : c.own b = ⟨stage, []⟩) (hafter : c'.own b = ⟨stage', M.toSay b stage'⟩)
    (hothers : ∀ j, j ≠ b → c'.own j = c.own j)
    (hshared : c'.shared = { c.shared with kernel := sh })
    (hheap : stage = .initializing → M.heap.isSome = true)
    (hrun : ParaOS.Paraos.run M.toCores B b stage c.shared.kernel stage' sh) : Spoken M b c' where
  kernel := hkernel
  silent j hj := by
    rw [hothers j hj]
    exact h.silent j hj
  writer := by
    rw [hshared]
    exact h.writer
  said := by
    have hsaid := h.said
    rw [hbefore] at hsaid
    rw [hafter, hshared, Computer.said_step hb hrun, ← hsaid]
    exact congrArg (· ++ _) (List.append_nil _).symm
  pending := by
    rw [hafter]
  guarded := by
    have hguarded := h.guarded
    rw [hbefore] at hguarded
    rw [hafter, hshared]
    rcases hguarded with ⟨hnone, -⟩ | ⟨steps, -, hnil, -⟩
    · exact .inl ⟨hnone, M.dropped_toSay b stage'⟩
    · cases hnil
  heap hinit := by
    have hold := h.heap
    rw [hbefore] at hold
    rw [hafter] at hinit
    cases hrun with
    | callOnce => cases hinit
    | given => cases hinit
    | invoke => cases hinit
    | returns => exact hheap rfl
    | skip hi => exact absurd hb hi
    | wait => exact hold rfl
    | pass => exact hold rfl
    | greet => exact hold rfl
    | finish => exact hold rfl

end

section

variable [DecidableEq ι] {M : Computer ι σ} {b i : ι} {c c' : Config ι Starter (Line B)}

/-- What `run` sees of a step of one core. -/
theorem kernelOf_update (c : Config ι Starter (Line B)) (i : ι) (s : Starter) (l : Line B) :
    kernelOf ⟨Function.update c.own i s, l⟩ =
      ⟨Function.update (kernelOf c).own i s.stage, l.kernel⟩ :=
  congrArg (Config.mk · l.kernel) (Function.comp_update Starter.stage c.own i s)

/-- Nothing changes for `run` while a core is at the port. -/
theorem kernelOf_eq {stage : Stage} {todo todo' : List PortStep} {l : Line B}
    (hown : c.own i = ⟨stage, todo⟩) (hl : l.kernel = c.shared.kernel) :
    kernelOf ⟨Function.update c.own i ⟨stage, todo'⟩, l⟩ = kernelOf c := by
  have hstage : (kernelOf c).own i = stage := congrArg Starter.stage hown
  rw [kernelOf_update, ← hstage, Function.update_eq_self, hl]
  rfl

/-- **A step of `_start` is a step of `run`, or none.** -/
theorem kernelOf_step (h : (M.start B).Step i c c') :
    kernelOf c' = kernelOf c ∨
      (ParaOS.Paraos.run M.toCores B).Step i (kernelOf c) (kernelOf c') := by
  obtain ⟨s, l, hst, rfl⟩ := h
  generalize hown : c.own i = own, hshared : c.shared = shared at hst
  cases hst with
  | port => exact .inl (kernelOf_eq hown (by rw [hshared]))
  | run hheap hrun =>
      refine .inr ⟨_, _, ?_, kernelOf_update c i _ _⟩
      have hstage : (kernelOf c).own i = _ := congrArg Starter.stage hown
      have hkernel : (kernelOf c).shared = _ := congrArg Line.kernel hshared
      rw [hstage, hkernel]
      exact hrun

variable [Fintype ι]

/-- What is known of `run` stays known. -/
theorem Spoken.booting_step (hboot : ∀ i, M.isBootstrapCore i ↔ i = b) (h : Spoken M b c)
    (hs : (M.start B).Step i c c') : Booting M.toCores b (kernelOf c') := by
  rcases kernelOf_step hs with heq | hs'
  · rw [heq]
    exact h.kernel
  · exact h.kernel.step hboot hs'

/-- A step of another core. -/
theorem Spoken.step_other (hboot : ∀ i, M.isBootstrapCore i ↔ i = b) (h : Spoken M b c)
    (hs : (M.start B).Step i c c') (hi : i ≠ b) : Spoken M b c' := by
  have hkernel := h.booting_step hboot hs
  have hown := hs.own_self
  have htodo := h.silent i hi
  have hsame : c'.own b = c.own b := hs.own_of_ne hi.symm
  generalize hbefore : c.own i = s, hafter : c'.own i = s', hshared : c'.shared = l at hown
  cases hown with
  | port =>
      rw [hbefore] at htodo
      cases htodo
  | @run _ stage stage' _ sh hheap hrun =>
      have hinit : stage' ≠ .initializing := by
        rintro rfl
        exact hi (hkernel.initializing i (congrArg Starter.stage hafter))
      refine ⟨hkernel, fun j hj => ?_, ?_, ?_, ?_, ?_, ?_⟩
      · by_cases hji : j = i
        · subst hji
          rw [hafter]
          exact M.toSay_eq_nil hboot hi hinit
        · rw [hs.own_of_ne hji]
          exact h.silent j hj
      · rw [hshared]
        exact h.writer
      · rw [hshared, hsame]
        exact h.said
      · rw [hsame]
        exact h.pending
      · rw [hshared, hsame]
        exact h.guarded
      · rw [hsame]
        exact h.heap

/-- **Every step keeps the invariant.** -/
theorem Spoken.step (hboot : ∀ i, M.isBootstrapCore i ↔ i = b) (h : Spoken M b c)
    (hs : (M.start B).Step i c c') : Spoken M b c' := by
  by_cases hi : i = b
  · subst hi
    have hkernel := h.booting_step hboot hs
    have hothers : ∀ j, j ≠ i → c'.own j = c.own j := fun j hj => hs.own_of_ne hj
    have hguarded := h.guarded
    have hown := hs.own_self
    generalize hbefore : c.own i = s, hafter : c'.own i = s', hshared₀ : c.shared = l,
      hshared : c'.shared = l' at hown hguarded
    cases hown with
    | port hstep =>
        obtain ⟨new, hwritten, hwriter, hnew⟩ := hstep.exists_written
        refine h.atPort hkernel (List.suffix_cons _ _) hbefore hafter hothers ?_ hwriter ?_ ?_
        · rw [hshared, hshared₀]
          exact hwritten
        · rw [hnew, ← outbs_append]
          rfl
        · rw [hshared]
          exact hguarded.step hstep
    | run hheap hrun =>
        subst hshared₀
        exact h.step_run ((hboot i).mpr rfl) hkernel hbefore hafter hothers hshared hheap hrun
  · exact h.step_other hboot hs hi

end

/-! ## The text

The four parts of the result, each from the invariant alone. -/

section

variable [Fintype ι] {M : Computer ι σ} {b i : ι} {c : Config ι Starter (Line B)}

/-- What has been written is the beginning of what is said by the end of the stage. -/
theorem Spoken.written_prefix_said (h : Spoken M b c) :
    c.shared.wire.written.map Prod.snd <+: M.said b (c.own b).stage :=
  ⟨_, h.said⟩

/-- And it has what was said before the stage. -/
theorem Spoken.prefix_written (h : Spoken M b c) {before : List (UInt16 × UInt8)}
    (hbefore : M.said b (c.own b).stage = before ++ outbs (M.toSay b (c.own b).stage)) :
    before <+: c.shared.wire.written.map Prod.snd :=
  prefix_of_pending (h.said.trans hbefore) h.pending

/-- Before the greeting nothing of it is written. -/
theorem Spoken.finished_of_lt (h : Spoken M b c)
    (hlt : (M.said b .passed).length < c.shared.wire.written.length) :
    (c.own b).stage = .finished := by
  have hle := h.written_prefix_said.length_le
  rw [List.length_map] at hle
  have hsaid : ∀ stage, stage ≠ .finished →
      (M.said b stage).length ≤ (M.said b .passed).length := by
    intro stage hstage
    have hobtained : (outbs initSteps).length ≤ (M.said b .passed).length := by
      have hpassed : M.said b .passed = outbs (initSteps ++ M.bootstrapInit) := rfl
      rw [hpassed, outbs_append, List.length_append]
      exact Nat.le_add_right _ _
    cases stage with
    | entry => exact Nat.zero_le _
    | calling => exact Nat.zero_le _
    | obtained => exact hobtained
    | finished => exact absurd rfl hstage
    | _ => exact Nat.le_refl _
  by_contra hne
  have := hsaid _ hne
  omega

/-- What has been said before the barrier is written when the bootstrap core arrives. -/
theorem Spoken.said_of_arrived (h : Spoken M b c) (harrived : (c.own b).stage.arrived = true) :
    M.said b .passed <+: c.shared.wire.written.map Prod.snd := by
  refine h.prefix_written ?_
  generalize (c.own b).stage = stage at harrived
  cases stage with
  | waiting => exact (List.append_nil _).symm
  | passed => exact (List.append_nil _).symm
  | finished => exact outbs_append _ _
  | _ => cases harrived

end

/-- A core that has arrived is through with `bootstrap_init`. -/
theorem Stage.initialized_of_arrived {s : Stage} (h : s.arrived = true) : s.initialized = true := by
  cases s <;> first | rfl | cases h

/-- **What the machine says while it boots.**  Whatever the order in which the cores
take their steps, only the bootstrap core writes to the port, what has been written
is the beginning of one text, and nobody ever waits for the mutex.  Once a core is
past the barrier, the memory has been handed over and everything before the greeting
is written.  The greeting is not begun before all cores have arrived at the barrier,
and when the bootstrap core is through, the text is complete.

It holds in every configuration, also in a run in which the closure panics or in
which some of the cores never take a step.  The barrier is any that is as
documented. -/
theorem boot_output [Fintype ι] [DecidableEq ι] {M : Computer ι σ}
    {c : Config ι Starter (Line B)} (hB : B.Documented)
    (hcores : ∀ i, M.numCores i = Fintype.card ι) (hboot : ∃! i, M.isBootstrapCore i)
    (h : Processes.Reach (M.start B) (fun _ _ => True) (power B) c) :
    ∃ b, M.isBootstrapCore b ∧ (∀ w ∈ c.shared.wire.written, w.1 = b) ∧
      c.shared.wire.written.map Prod.snd <+: M.said b .finished ∧
      (∀ i steps, (c.own i).todo = .lock :: steps → c.shared.wire.mutex = none) ∧
      ((∃ i, (c.own i).stage.past = true) →
        M.heap.isSome = true ∧ M.said b .passed <+: c.shared.wire.written.map Prod.snd) ∧
      ((M.said b .passed).length < c.shared.wire.written.length →
        ∀ i, (c.own i).stage.arrived = true) ∧
      (c.own b = ⟨.finished, []⟩ → c.shared.wire.written.map Prod.snd = M.said b .finished) := by
  obtain ⟨b, hb, hunique⟩ := hboot
  have hiff : ∀ i, M.isBootstrapCore i ↔ i = b := fun i => ⟨hunique i, fun h => h ▸ hb⟩
  have hinv : Spoken M b c :=
    h.invariant (spoken_power M b) fun _ _ _ hc _ hs => hc.step hiff hs
  have hall : ∀ i, (c.own i).stage.past = true → ∀ j, (c.own j).stage.arrived = true :=
    fun i hi => hinv.kernel.all_arrived hB hcores hi
  refine ⟨b, hb, hinv.writer, hinv.written_prefix_said.trans (M.said_prefix_finished b _), ?_, ?_,
    ?_, ?_⟩
  · intro i steps hlock
    by_cases hi : i = b
    · subst hi
      rcases hinv.guarded with ⟨hnone, -⟩ | ⟨steps', -, heq, -⟩
      · exact hnone
      · rw [hlock] at heq
        cases heq
    · rw [hinv.silent i hi] at hlock
      cases hlock
  · rintro ⟨i, hi⟩
    have harrived := hall i hi b
    exact ⟨hinv.heap (Stage.initialized_of_arrived harrived), hinv.said_of_arrived harrived⟩
  · intro hlt
    refine hall b ?_
    rw [hinv.finished_of_lt hlt]
    rfl
  · intro hown
    have hsaid := hinv.said
    rw [hown] at hsaid
    exact (List.append_nil _).symm.trans hsaid

/-- A machine with two cores and a page that has one entry, with an allocator that adds up
sizes. -/
def smallComputer : Computer (Fin 2) ℕ where
  toCores := { twoCores with quiet := false }
  overflowChecks := true
  bootboot := Bootboot.ofPage smallPage 0
  emptyHeap := 0
  addToHeap heap first last := some (heap + (last - first).toNat)
  totalBytes heap := heap
  panicInfo := []

/-- The first byte is written while core `1` is still in `call_once`. -/
theorem boot_output_instance :
    ∃ c : Config (Fin 2) Starter (Line (OnceBarrier.reference (Fin 2))),
      Processes.Reach (smallComputer.start (OnceBarrier.reference (Fin 2))) (fun _ _ => True)
        (power _) c ∧
      c.shared.wire.written = [(0, 0x3f9, 0x00)] ∧ (c.own 1).stage = .calling ∧
      c.shared.wire.written.map Prod.snd <+: smallComputer.said 0 .finished := by
  have h₀ : Processes.Reach (smallComputer.start (OnceBarrier.reference (Fin 2)))
      (fun _ _ => True) (power _) (power _) := .refl
  have h₁ := h₀.step (i := 0) trivial ⟨_, _, .run nofun (.callOnce rfl), rfl⟩
  have h₂ := h₁.step (i := 1) trivial ⟨_, _, .run nofun (.callOnce rfl), rfl⟩
  have h₃ := h₂.step (i := 0) trivial ⟨_, _, .run nofun (.given rfl), rfl⟩
  have h₄ := h₃.step (i := 0) trivial ⟨_, _, .port (.lock rfl), rfl⟩
  have h₅ := h₄.step (i := 0) trivial ⟨_, _, .port .unlock, rfl⟩
  have hreach := h₅.step (i := 0) trivial ⟨_, _, .port .outb, rfl⟩
  have hboot : ∃! i, smallComputer.isBootstrapCore i := ⟨0, rfl, of_decide_eq_true rfl⟩
  obtain ⟨b, hb, -, hprefix, -⟩ :=
    boot_output OnceBarrier.reference_documented (fun _ => rfl) hboot hreach
  obtain rfl : b = 0 := hboot.unique hb rfl
  exact ⟨_, hreach, rfl, rfl, hprefix⟩

end ParaOS.Paraos

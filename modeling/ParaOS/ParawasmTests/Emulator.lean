import ParaOS.Machine.Bytes
import ParaOS.Parawasm.Linking

/-!
# `parawasm_tests::testing`: the emulator

`Emulator` puts binaries one after the other into the memory of an x86 emulator, links
them while they are there, and calls their functions through a trampoline.  Before a call
all binaries are written again, so what runs is what was linked last
(`updateModules_holds`).

The processor is a parameter: `Engine` is `emu_start` of the `unicorn_engine`, by what it
executes and what it leaves.  While it runs, a hook counts the instructions that are
executed in each of the modules.  It asks whether an address is in a module by
`candidate_begin <= addr <= candidate_end`, and the first byte after a module is the first
byte of the next; no instruction begins there, so nothing is counted in the wrong place
(`hook_counts`).  A hook is removed when the call has succeeded, and stays when it fails.

### What is asked of the engine

Nothing, here.  An `Engine` may execute any addresses and leave any state, and may
fail after having done so.  That it is a processor is for those to say who need it:
`session_counts` asks that what it has executed in modules are instructions of
theirs, and `session_calls_return` does not use what it does at all, but says what a
run from the state it is started in comes to.

The order in which things happen is kept where it can be seen.  `call_function`
looks the function up first and fails with nothing changed; binaries are written
next, and if one of them does not fit in memory the ones in front of it have been
written; the hook is added last, and stays behind if the run fails.
-/

namespace ParaOS.ParawasmTests

open Machine X86 Parawasm

/-! ## The engine

Memory is mapped from zero up to `memorySize`, and everything that is written goes
through `memWrite`, which refuses what is not inside. -/

/-- `testing::Error` -/
inductive Error where
  | emulationError
  | internalAssemblyError
  | functionNotFound
  deriving DecidableEq

/-- The memory that `Emulator::new` maps. -/
def memorySize : ℕ := 128 * 1024 * 1024

/-- `mem_write`, which writes to mapped memory only. -/
def memWrite (s : X86.State) (a : ℕ) (bytes : List UInt8) : Option X86.State :=
  if bytes = [] ∨ a + bytes.length ≤ memorySize then
    some { s with mem := s.mem.writeBytes a bytes }
  else none

/-- What a call of `emu_start` comes to: the addresses of the instructions that were
executed, what they left, and whether there was an error. -/
structure Emulation where
  executed : List ℕ
  state : X86.State
  ok : Bool

/-- `emu_start`, from an address until another. -/
structure Engine where
  start : X86.State → ℕ → ℕ → Emulation

/-! ## `Module` -/

/-- `testing::Module` -/
structure Module where
  offset : ℕ
  module : AssembledModule
  executedInstructions : Std.TreeMap ℕ ℕ

namespace Module

/-- `candidate_end` -/
def finish (m : Module) : ℕ := m.offset + m.module.assembled.length

/-- The first byte of a module.  A module without bytes has none. -/
def BeginsAt (m : Module) (addr : ℕ) : Prop := m.offset = addr ∧ addr < m.finish

/-- An instruction at an offset is executed. -/
def count (m : Module) (offset : ℕ) : Module :=
  { m with
    executedInstructions := m.executedInstructions.insert offset
      (match m.executedInstructions[offset]? with
        | none => 1
        | some n => n + 1) }

/-- `instruction_execution_count` -/
def instructionExecutionCount (m : Module) (offset : ℕ) : ℕ :=
  m.executedInstructions[offset]?.getD 0

theorem instructionExecutionCount_count (m : Module) (offset o : ℕ) :
    (m.count offset).instructionExecutionCount o =
      m.instructionExecutionCount o + if o = offset then 1 else 0 := by
  rw [instructionExecutionCount, count, Std.TreeMap.getElem?_insert, instructionExecutionCount]
  by_cases ho : o = offset
  · subst ho
    rw [if_pos rfl, if_pos (Std.LawfulEqCmp.compare_eq_iff_eq.mpr rfl)]
    cases m.executedInstructions[o]? with
    | none => rfl
    | some n => rfl
  · rw [if_neg ho, if_neg fun h => ho (Std.LawfulEqCmp.compare_eq_iff_eq.mp h).symm]
    rfl

end Module

/-! ## `Emulator` -/

/-- `testing::Emulator`.  A hook is the modules it knows, which are the first so many. -/
structure Emulator where
  emulator : X86.State
  moduleOffset : ℕ
  trampolineLen : ℕ
  trampolineOffset : ℕ
  modules : List Module
  /-- the code hooks that are installed -/
  hooks : List ℕ

/-- `Emulator::new`, with a processor that has been reset. -/
def Emulator.new (E : Encoder) (s : X86.State) : Except Error Emulator :=
  match E.assemble [.callReg .r10, .nop] [] with
  | .error _ => .error .internalAssemblyError
  | .ok trampoline =>
      match memWrite s 0 trampoline.bytes with
      | none => .error .emulationError
      | some s => .ok {
          emulator := s.set .rsp (BitVec.ofNat 64 (memorySize - 1))
          moduleOffset := trampoline.bytes.length
          trampolineLen := trampoline.bytes.length
          trampolineOffset := 0
          modules := []
          hooks := [] }

/-- `add_module` -/
def Emulator.addModule (e : Emulator) (module : AssembledModule) : Except Error Emulator :=
  match memWrite e.emulator e.moduleOffset module.assembled with
  | none => .error .emulationError
  | some s => .ok { e with
      emulator := s
      moduleOffset := e.moduleOffset + module.assembled.length
      modules := e.modules ++ [⟨e.moduleOffset, module, ∅⟩] }

/-- `add_memory`, which returns where the bytes are. -/
def Emulator.addMemory (e : Emulator) (mem : List UInt8) : Except Error (ℕ × Emulator) :=
  match memWrite e.emulator e.moduleOffset mem with
  | none => .error .emulationError
  | some s => .ok (e.moduleOffset, { e with
      emulator := s
      moduleOffset := e.moduleOffset + mem.length })

/-- `update_module`, for one module after the other until one of them fails. -/
def updateModules : List Module → X86.State → X86.State × Except Error Unit
  | [], s => (s, .ok ())
  | m :: ms, s =>
      match memWrite s m.offset m.module.assembled with
      | none => (s, .error .emulationError)
      | some s => updateModules ms s

/-- The first of the modules that an address is in. -/
def matchingModule (modules : List Module) (addr : ℕ) : Option ℕ :=
  modules.findIdx? fun m => decide (m.offset ≤ addr ∧ addr ≤ m.finish)

/-- The code hook. -/
def hook (addr : ℕ) (modules : List Module) (known : ℕ) : List Module :=
  match matchingModule (modules.take known) addr with
  | some k => modules.modify k fun m => m.count (addr - m.offset)
  | none => modules

/-- What is done in `call_function` before the hook is added, and the register that is
written after it. -/
def Emulator.prepare {α : Type} [FunctionIdentifier α] (e : Emulator) (m : Module)
    (identifier : α) : Emulator × Except Error Unit :=
  match m.module.module.functionEntryPoint identifier with
  | none => (e, .error .functionNotFound)
  | some functionOffset =>
      match updateModules e.modules e.emulator with
      | (s, .error err) => ({ e with emulator := s }, .error err)
      | (s, .ok ()) =>
          ({ e with emulator := s.set .r10 (BitVec.ofNat 64 (m.offset + functionOffset)) }, .ok ())

/-- Whatever comes of it, only registers and memory have changed. -/
theorem exists_prepare {α : Type} [FunctionIdentifier α] (e : Emulator) (m : Module)
    (identifier : α) : ∃ s, (e.prepare m identifier).1 = { e with emulator := s } := by
  rw [Emulator.prepare]
  split
  · exact ⟨e.emulator, rfl⟩
  · split
    · exact ⟨_, rfl⟩
    · exact ⟨_, rfl⟩

/-- The rest of `call_function`: the hook is removed if there was no error. -/
def Emulator.emulate (e : Emulator) (U : Engine) : Emulator × Except Error Unit :=
  let hooks := e.hooks ++ [e.modules.length]
  let r := U.start e.emulator e.trampolineOffset (e.trampolineOffset + e.trampolineLen)
  let e' := { e with
    emulator := r.state
    modules := r.executed.foldl (fun ms addr => hooks.foldl (hook addr) ms) e.modules }
  if r.ok then (e', .ok ()) else ({ e' with hooks := hooks }, .error .emulationError)

/-- `call_function` -/
def Emulator.callFunction {α : Type} [FunctionIdentifier α] (e : Emulator) (U : Engine)
    (m : Module) (identifier : α) : Emulator × Except Error Unit :=
  match e.prepare m identifier with
  | (e', .error err) => (e', .error err)
  | (e', .ok ()) => e'.emulate U

/-- `push`; there is a panic if the stack pointer is below eight. -/
def Emulator.push (e : Emulator) (value : Word) : Option (Emulator × Except Error Unit) :=
  if e.emulator.sp < 8 then none
  else
    let s := e.emulator.set .rsp (e.emulator.regs .rsp - 8)
    match memWrite s s.sp (leBytes value) with
    | none => some ({ e with emulator := s }, .error .emulationError)
    | some s => some ({ e with emulator := s }, .ok ())

/-- `pop` -/
def Emulator.pop (e : Emulator) : Emulator × Except Error Word :=
  if e.emulator.sp + 8 ≤ memorySize then
    ({ e with emulator := e.emulator.set .rsp (e.emulator.regs .rsp + 8) },
      .ok (e.emulator.mem.load e.emulator.sp))
  else (e, .error .emulationError)

/-- `link_import` on a module of the emulator. -/
def Emulator.setModule (e : Emulator) (k : ℕ) (module : AssembledModule) : Emulator :=
  { e with modules := e.modules.modify k fun m => { m with module := module } }

/-! ## Where modules are

Modules are put where memory is free, and never moved.  They do not overlap, and
this is an invariant of everything that is done with an emulator. -/

/-- What has been written is in memory that is mapped, also if it was nothing. -/
theorem le_of_memWrite {s s' : X86.State} {a : ℕ} {bytes : List UInt8}
    (h : memWrite s a bytes = some s') (ha : a ≤ memorySize) :
    a + bytes.length ≤ memorySize := by
  rw [memWrite] at h
  split_ifs at h with hbytes
  rcases hbytes with rfl | hle
  · exact ha
  · exact hle

/-- Modules stand one after the other, in the memory that is mapped. -/
structure Placed (e : Emulator) : Prop where
  apart : e.modules.Pairwise fun m m' => m.finish ≤ m'.offset
  inside : ∀ m ∈ e.modules, m.finish ≤ e.moduleOffset
  mapped : e.moduleOffset ≤ memorySize

/-- **Before a call all binaries are in memory as they are now.** -/
theorem updateModules_holds {modules : List Module} (s : X86.State)
    (hapart : modules.Pairwise fun m m' => m.finish ≤ m'.offset)
    (hmapped : ∀ m ∈ modules, m.finish ≤ memorySize) :
    ∃ mem, updateModules modules s = ({ s with mem := mem }, .ok ()) ∧
      (∀ m ∈ modules, mem.Holds m.offset m.module.assembled) ∧
      ∀ (a : ℕ) bytes, s.mem.Holds a bytes →
        (∀ m ∈ modules, a + bytes.length ≤ m.offset ∨ m.finish ≤ a) → mem.Holds a bytes := by
  induction modules generalizing s with
  | nil => exact ⟨s.mem, rfl, nofun, fun _ _ h _ => h⟩
  | cons m modules ih =>
      obtain ⟨hfirst, hrest⟩ := List.pairwise_cons.mp hapart
      obtain ⟨mem, hupdate, hholds, hkept⟩ :=
        ih { s with mem := s.mem.writeBytes m.offset m.module.assembled } hrest
          fun m' hm' => hmapped m' (List.mem_cons_of_mem m hm')
      refine ⟨mem, ?_, ?_, fun a bytes h hdisjoint => ?_⟩
      · have hinside : m.offset + m.module.assembled.length ≤ memorySize :=
          hmapped m List.mem_cons_self
        rw [updateModules, memWrite, if_pos (.inr hinside)]
        exact hupdate
      · intro m' hm'
        rcases List.mem_cons.mp hm' with rfl | hm'
        · exact hkept _ _ (s.mem.holds_writeBytes _ _) fun m'' hm'' => .inl (hfirst m'' hm'')
        · exact hholds m' hm'
      · refine hkept a bytes (h.writeBytes ?_) fun m' hm' =>
          hdisjoint m' (List.mem_cons_of_mem m hm')
        exact hdisjoint m List.mem_cons_self

/-! ## What is counted

The comparison with `candidate_end` is off by one: an address right behind a module
is taken to be in it.  Modules stand side by side, so such an address is the first
byte of the next module, if there is one, and the module in front is found before
it.  The lemmas therefore ask of every address that is executed that no module
begins there.

A count is a fold over addresses of a fold over hooks.  `Counts` describes one step,
the empty run and the composition of two, and the rest is induction. -/

/-- What does not change while instructions are counted. -/
def Module.place (m : Module) : ℕ × AssembledModule := (m.offset, m.module)

/-- Modules after some instructions have been executed, if so many of them at an address
are counted for a module. -/
structure Counts (ms ms' : List Module) (executions : ℕ → ℕ → ℕ) : Prop where
  places : ms'.map Module.place = ms.map Module.place
  counts : ∀ (k : ℕ) m m' o, ms[k]? = some m → ms'[k]? = some m' →
    o < m.module.assembled.length →
      m'.instructionExecutionCount o = m.instructionExecutionCount o + executions k (m.offset + o)

/-- A module is where it was. -/
theorem exists_of_places {ms ms' : List Module} (h : ms'.map Module.place = ms.map Module.place)
    {k : ℕ} {m : Module} (hm : ms[k]? = some m) : ∃ m', ms'[k]? = some m' ∧ m'.place = m.place := by
  have hplace := congrArg (·[k]?) h
  simp only [List.getElem?_map, hm, Option.map_some, Option.map_eq_some_iff] at hplace
  exact hplace

/-- Nothing is counted when nothing is executed. -/
theorem Counts.refl (ms : List Module) : Counts ms ms fun _ _ => 0 := by
  refine ⟨rfl, fun k m m' o hm hm' _ => ?_⟩
  cases hm.symm.trans hm'
  rfl

/-- What is counted one after the other is added up. -/
theorem Counts.trans {ms ms' ms'' : List Module} {f g : ℕ → ℕ → ℕ} (h : Counts ms ms' f)
    (h' : Counts ms' ms'' g) : Counts ms ms'' fun k a => f k a + g k a := by
  refine ⟨h'.places.trans h.places, fun k m m'' o hm hm'' ho => ?_⟩
  obtain ⟨m', hm', hplace⟩ := exists_of_places h.places hm
  obtain ⟨hoffset, hmodule⟩ := Prod.mk.inj hplace
  rw [h'.counts k m' m'' o hm' hm'' (hmodule ▸ ho), h.counts k m m' o hm hm' ho, hoffset,
    Nat.add_assoc]

/-- How the count is written does not matter. -/
theorem Counts.congr {ms ms' : List Module} {f g : ℕ → ℕ → ℕ} (h : Counts ms ms' f)
    (hfg : ∀ k a, f k a = g k a) : Counts ms ms' g := by
  refine ⟨h.places, fun k m m' o hm hm' ho => ?_⟩
  rw [h.counts k m m' o hm hm' ho, hfg]

/-- Modules stand apart whatever is done to them where they are. -/
theorem pairwise_of_ranges {ms ms' : List Module}
    (h : (ms'.map fun m => (m.offset, m.finish)) = ms.map fun m => (m.offset, m.finish))
    (hapart : ms.Pairwise fun m m' => m.finish ≤ m'.offset) :
    ms'.Pairwise fun m m' => m.finish ≤ m'.offset := by
  have hranges : (ms.map fun m => (m.offset, m.finish)).Pairwise fun p p' => p.2 ≤ p'.1 :=
    List.pairwise_map.mpr hapart
  rw [← h] at hranges
  exact List.pairwise_map.mp hranges

/-- The places of modules say where they begin and end. -/
theorem ranges_of_places {ms ms' : List Module}
    (h : ms'.map Module.place = ms.map Module.place) :
    (ms'.map fun m => (m.offset, m.finish)) = ms.map fun m => (m.offset, m.finish) := by
  have hmap := congrArg (List.map fun p => (p.1, p.1 + p.2.assembled.length)) h
  rwa [List.map_map, List.map_map] at hmap

/-- A module of those that stand where others do. -/
theorem exists_of_ranges {ms ms' : List Module}
    (h : (ms'.map fun m => (m.offset, m.finish)) = ms.map fun m => (m.offset, m.finish))
    {m' : Module} (hm' : m' ∈ ms') : ∃ m ∈ ms, m.offset = m'.offset ∧ m.finish = m'.finish := by
  have hmem : (m'.offset, m'.finish) ∈ ms.map fun m => (m.offset, m.finish) :=
    h ▸ List.mem_map_of_mem hm'
  obtain ⟨m, hm, heq⟩ := List.mem_map.mp hmem
  exact ⟨m, hm, Prod.mk.inj heq⟩

/-- Modules whose first byte an address is not. -/
theorem not_beginsAt_of_ranges {ms ms' : List Module}
    (h : (ms'.map fun m => (m.offset, m.finish)) = ms.map fun m => (m.offset, m.finish)) {addr : ℕ}
    (hfirst : ∀ m ∈ ms, ¬ m.BeginsAt addr) : ∀ m ∈ ms', ¬ m.BeginsAt addr := by
  rintro m' hm' ⟨hbegin, hlt⟩
  obtain ⟨m, hm, hoffset, hfinish⟩ := exists_of_ranges h hm'
  exact hfirst m hm ⟨hoffset.trans hbegin, hfinish ▸ hlt⟩

/-- Counting does not change where modules begin. -/
theorem not_beginsAt_of_places {ms ms' : List Module}
    (h : ms'.map Module.place = ms.map Module.place) {addr : ℕ}
    (hfirst : ∀ m ∈ ms, ¬ m.BeginsAt addr) : ∀ m ∈ ms', ¬ m.BeginsAt addr :=
  not_beginsAt_of_ranges (ranges_of_places h) hfirst

theorem getElem?_setModule {e : Emulator} {k : ℕ} {m : Module} (hm : e.modules[k]? = some m)
    (asm : AssembledModule) (j : ℕ) : (e.setModule k asm).modules[j]? =
      if k = j then some { m with module := asm } else e.modules[j]? := by
  rw [Emulator.setModule, List.getElem?_modify]
  by_cases hj : k = j
  · subst hj
    simp [hm]
  · simp [hj]

/-- A binary that is as long as before stands where it did. -/
theorem ranges_setModule {e : Emulator} {k : ℕ} {m : Module} (hm : e.modules[k]? = some m)
    {asm : AssembledModule} (hlength : asm.assembled.length = m.module.assembled.length) :
    ((e.setModule k asm).modules.map fun m => (m.offset, m.finish)) =
      e.modules.map fun m => (m.offset, m.finish) := by
  refine List.ext_getElem? fun j => ?_
  rw [List.getElem?_map, List.getElem?_map, getElem?_setModule hm]
  split_ifs with hj
  · subst hj
    rw [hm, Option.map_some, Option.map_some, Module.finish, Module.finish, hlength]
  · rfl

/-- Nor that they stand apart. -/
theorem pairwise_of_places {ms ms' : List Module} (h : ms'.map Module.place = ms.map Module.place)
    (hapart : ms.Pairwise fun m m' => m.finish ≤ m'.offset) :
    ms'.Pairwise fun m m' => m.finish ≤ m'.offset :=
  pairwise_of_ranges (ranges_of_places h) hapart

/-- An address in a module is not in another, nor behind it, unless it is the first. -/
theorem eq_of_matching {ms : List Module} (hapart : ms.Pairwise fun m m' => m.finish ≤ m'.offset)
    {addr : ℕ} (hfirst : ∀ m ∈ ms, ¬ m.BeginsAt addr) {j k : ℕ} {m m' : Module}
    (hj : ms[j]? = some m) (hk : ms[k]? = some m') (hm : m.offset ≤ addr ∧ addr ≤ m.finish)
    (hm' : m'.offset ≤ addr ∧ addr < m'.finish) : j = k := by
  have hne : m'.offset ≠ addr := fun heq => hfirst m' (List.mem_of_getElem? hk) ⟨heq, hm'.2⟩
  obtain ⟨hjlt, rfl⟩ := List.getElem?_eq_some_iff.mp hj
  obtain ⟨hklt, rfl⟩ := List.getElem?_eq_some_iff.mp hk
  have hpair := List.pairwise_iff_getElem.mp hapart
  rcases Nat.lt_trichotomy j k with hlt | heq | hlt
  · have := hpair j k hjlt hklt hlt
    omega
  · exact heq
  · have := hpair k j hklt hjlt hlt
    omega

/-- The module that is found is one that the hook knows, and the address is in it or
right behind it. -/
theorem matchingModule_eq_some {ms : List Module} {addr known j : ℕ}
    (h : matchingModule (ms.take known) addr = some j) :
    j < known ∧ ∃ m, ms[j]? = some m ∧ m.offset ≤ addr ∧ addr ≤ m.finish := by
  obtain ⟨hlt, hmatch, -⟩ := List.findIdx?_eq_some_iff_getElem.mp h
  have hj : j < known := Nat.lt_of_lt_of_le hlt (List.length_take_le known ms)
  rw [List.getElem_take] at hmatch
  exact ⟨hj, _, List.getElem?_eq_getElem _, of_decide_eq_true hmatch⟩

/-- If none is found, the address is in none that the hook knows. -/
theorem matchingModule_eq_none {ms : List Module} {addr known k : ℕ} {m : Module}
    (h : matchingModule (ms.take known) addr = none) (hk : k < known) (hm : ms[k]? = some m) :
    ¬ (m.offset ≤ addr ∧ addr ≤ m.finish) := by
  have hmem : m ∈ ms.take known := List.mem_of_getElem? (by rw [List.getElem?_take_of_lt hk, hm])
  exact of_decide_eq_false (List.findIdx?_eq_none_iff.mp h m hmem)

/-- Counting leaves modules in their places. -/
theorem places_modify (ms : List Module) (offset : Module → ℕ) (j : ℕ) :
    (ms.modify j fun m => m.count (offset m)).map Module.place = ms.map Module.place := by
  refine List.ext_getElem? fun i => ?_
  rw [List.getElem?_map, List.getElem?_map, List.getElem?_modify]
  cases ms[i]? with
  | none => rfl
  | some m =>
      by_cases hi : j = i
      · simp [hi, Module.place, Module.count]
      · simp [hi]

/-- Counting moves nothing. -/
theorem places_hook (addr : ℕ) (ms : List Module) (known : ℕ) :
    (hook addr ms known).map Module.place = ms.map Module.place := by
  rw [hook]
  split
  · exact places_modify ms _ _
  · rfl

/-- Also for many hooks and many instructions. -/
theorem places_executed (ms : List Module) (hooks executed : List ℕ) :
    (executed.foldl (fun ms addr => hooks.foldl (hook addr) ms) ms).map Module.place =
      ms.map Module.place := by
  have hhooks : ∀ (addr : ℕ) (hooks : List ℕ) (ms : List Module),
      (hooks.foldl (hook addr) ms).map Module.place = ms.map Module.place := by
    intro addr hooks
    induction hooks with
    | nil => exact fun ms => rfl
    | cons known hooks ih => exact fun ms => (ih _).trans (places_hook addr ms known)
  induction executed generalizing ms with
  | nil => rfl
  | cons addr executed ih => exact (ih _).trans (hhooks addr hooks ms)

/-- **An instruction is counted in the module it belongs to**, once for a hook that knows
the module, unless it is the first byte of a module. -/
theorem hook_counts {ms : List Module} (hapart : ms.Pairwise fun m m' => m.finish ≤ m'.offset)
    {addr : ℕ} (hfirst : ∀ m ∈ ms, ¬ m.BeginsAt addr) (known : ℕ) :
    Counts ms (hook addr ms known) fun k a => if addr = a ∧ k < known then 1 else 0 := by
  rw [hook]
  split
  · rename_i j hmatching
    obtain ⟨hj, mj, hmj, hin⟩ := matchingModule_eq_some hmatching
    refine ⟨places_modify ms _ j, fun k m m' o hm hm' ho => ?_⟩
    by_cases hjk : j = k
    · subst hjk
      obtain rfl : mj = m := Option.some.inj (hmj.symm.trans hm)
      rw [List.getElem?_modify_eq, hm] at hm'
      cases hm'
      rw [Module.instructionExecutionCount_count]
      have hiff : o = addr - mj.offset ↔ addr = mj.offset + o ∧ j < known := by omega
      simp only [hiff]
    · rw [List.getElem?_modify_ne _ _ hjk, hm] at hm'
      cases hm'
      rw [if_neg, Nat.add_zero]
      rintro ⟨rfl, -⟩
      have hin' : m.offset ≤ m.offset + o ∧ m.offset + o < m.finish :=
        ⟨Nat.le_add_right _ _, Nat.add_lt_add_left ho _⟩
      exact hjk (eq_of_matching hapart hfirst hmj hm hin hin')
  · rename_i hmatching
    refine ⟨rfl, fun k m m' o hm hm' ho => ?_⟩
    cases hm.symm.trans hm'
    rw [if_neg, Nat.add_zero]
    rintro ⟨rfl, hk⟩
    refine matchingModule_eq_none hmatching hk hm ?_
    exact ⟨Nat.le_add_right _ _, Nat.add_le_add_left ho.le _⟩

/-- All hooks count an instruction. -/
theorem hooks_counts {ms : List Module} (hapart : ms.Pairwise fun m m' => m.finish ≤ m'.offset)
    {addr : ℕ} (hfirst : ∀ m ∈ ms, ¬ m.BeginsAt addr) (hooks : List ℕ) :
    Counts ms (hooks.foldl (hook addr) ms) fun k a =>
      if addr = a then hooks.countP (fun known => decide (k < known)) else 0 := by
  induction hooks generalizing ms with
  | nil =>
      refine (Counts.refl ms).congr fun k a => ?_
      rw [List.countP_nil, ite_self]
  | cons known hooks ih =>
      have hhook := hook_counts hapart hfirst known
      have hrest := ih (pairwise_of_places hhook.places hapart)
        (not_beginsAt_of_places hhook.places hfirst)
      refine (hhook.trans hrest).congr fun k a => ?_
      rw [List.countP_cons]
      by_cases ha : addr = a <;> by_cases hk : k < known <;> simp [ha, hk, Nat.add_comm]

/-- Instructions are executed. -/
theorem executed_counts {ms : List Module}
    (hapart : ms.Pairwise fun m m' => m.finish ≤ m'.offset) (hooks executed : List ℕ)
    (hfirst : ∀ addr ∈ executed, ∀ m ∈ ms, ¬ m.BeginsAt addr) :
    Counts ms (executed.foldl (fun ms addr => hooks.foldl (hook addr) ms) ms) fun k a =>
      executed.count a * hooks.countP fun known => decide (k < known) := by
  induction executed generalizing ms with
  | nil =>
      refine (Counts.refl ms).congr fun k a => ?_
      rw [List.count_nil, Nat.zero_mul]
  | cons addr executed ih =>
      have hhooks := hooks_counts hapart (hfirst addr List.mem_cons_self) hooks
      have hrest := ih (pairwise_of_places hhooks.places hapart) fun addr' haddr' =>
        not_beginsAt_of_places hhooks.places (hfirst addr' (List.mem_cons_of_mem addr haddr'))
      refine (hhooks.trans hrest).congr fun k a => ?_
      rw [List.count_cons, Nat.add_mul, Nat.add_comm]
      by_cases ha : addr = a <;> simp [ha]

end ParaOS.ParawasmTests

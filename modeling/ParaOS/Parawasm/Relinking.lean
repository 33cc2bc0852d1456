import ParaOS.Parawasm.Integrity
import ParaOS.Parawasm.Linking

/-!
# Where calls of imports go

A call of function import `k` loads the word at its slot and jumps to it.  The
word is the placeholder at first, and `link_import` writes an address over it,
but only over the slot of the first import with the two names it is given
(`Slots.findImport_eq`).  So a slot holds the last address its names were linked
to if it is that first one, and the placeholder otherwise (`Slots.wordAt_links`).

Core WebAssembly lets a module import one pair of names several times, and of
such imports only the first would be reached (`imports_reached_iff`).  The validator
`compile` makes has the module linking proposal turned on and refuses a pair that is
imported a second time, so every import is the first with its names, and linking
reaches all of them (`imports_reached`).  That the validator does so is the hypothesis
`DistinctImports`; nothing in `compile` or `link_import` would notice.

### What is load-bearing

`Measured` and `Literal` are what is asked of the assembler, and both are its
documentation: an instruction takes as many bytes as `instruction_len` says,
wherever it stands, and `dq` puts down the word it is given.  Without the first
offsets that were resolved while the module was read would not be those of the
finished binary, and without the second a slot that has not been linked could hold
anything.

That a linked word is the one the next call loads is not assumed.  The binary is
what is patched, and the program of a linked module reads the words of its slots out
of it (`linkedProgram`).
-/

namespace ParaOS.Parawasm

open Machine X86 Wasm

/-! ## Words of a binary

`link_import` writes eight bytes into a vector, and a call loads a word from memory.
Here these are the same: the binary is looked at as memory that starts at zero. -/

/-- A binary in memory. -/
def imageOf (bytes : List UInt8) : Mem := fun a => (bytes[a]?.getD 0).toBitVec

/-- The word at an offset of a binary. -/
def wordAt (bytes : List UInt8) (off : ℕ) : Word := (imageOf bytes).load off

/-- The bytes of a word, from the lowest. -/
theorem getElem?_leBytes {i : ℕ} (v : Word) (h : i < 8) :
    (leBytes v)[i]? = some (UInt8.ofBitVec (Mem.byteOf v i)) := by
  rw [leBytes, List.getElem?_map, List.getElem?_range h]
  rfl

/-- On the image of a binary a patch is a store. -/
theorem imageOf_patch {bytes : List UInt8} {off : ℕ} {v : Word} (h : off + 8 ≤ bytes.length) :
    imageOf (patch bytes off (leBytes v)) = (imageOf bytes).store off v := by
  funext p
  rw [imageOf, getElem?_patch (by rwa [length_leBytes]), length_leBytes, Mem.store]
  split_ifs with hp
  · rw [getElem?_leBytes v (by omega)]
    rfl
  · rfl

/-- A word that has been written is read back. -/
theorem wordAt_patch {bytes : List UInt8} {off : ℕ} {v : Word} (h : off + 8 ≤ bytes.length) :
    wordAt (patch bytes off (leBytes v)) off = v := by
  rw [wordAt, imageOf_patch h, Mem.load_store_self]

/-- Words that it does not touch are as before. -/
theorem wordAt_patch_of_disjoint {bytes : List UInt8} {off off' : ℕ} {v : Word}
    (h : off + 8 ≤ bytes.length) (hdisj : off + 8 ≤ off' ∨ off' + 8 ≤ off) :
    wordAt (patch bytes off (leBytes v)) off' = wordAt bytes off' := by
  rw [wordAt, imageOf_patch h, Mem.load_store_of_disjoint hdisj, wordAt]

/-! ## The slot that is linked

The search goes through the imports in order and stops at the first with the two
names.  The offset it has then found is that of the slot, since the slots of
function imports are one word each and stand in order (`Slots`). -/

/-- A call names this import. -/
def LinkCall.names (c : LinkCall) (i : Import) : Bool :=
  c.name.isSome && i.module == c.module && i.field == c.name

/-- A call that names no field names no import. -/
theorem LinkCall.names_iff {c : LinkCall} {i : Import} :
    c.names i = true ↔ ∃ name, c.name = some name ∧ i.module = c.module ∧ i.field = some name := by
  rw [names, Bool.and_eq_true, Bool.and_eq_true, beq_iff_eq, beq_iff_eq, Option.isSome_iff_exists]
  constructor
  · rintro ⟨⟨⟨name, hname⟩, hmodule⟩, hfield⟩
    exact ⟨name, hname, hmodule, hfield.trans hname⟩
  · rintro ⟨name, hname, hmodule, hfield⟩
    exact ⟨⟨⟨name, hname⟩, hmodule⟩, hfield.trans hname.symm⟩

/-- What the search of `link_import` does with the entry of an import. -/
theorem LinkCall.entry_eq (c : LinkCall) (i : Import) (off : ℕ) :
    (if i.module == c.module && (match c.name, i.field with
      | some n, some n' => n == n'
      | _, _ => false) then some off else none) =
    if c.names i then some off else none := by
  rw [LinkCall.names]
  cases c.name with
  | none => simp
  | some name =>
      cases i.field with
      | none => simp
      | some field =>
          have hswap : (some field == some name) = (name == field) := by
            rw [Option.some_beq_some, BEq.comm]
          simp [hswap]

variable {imports : List Import} {asm asm' : AssembledModule} {k : ℕ} {i : Import}

/-- **The search of `link_import` ends at the first import with the two names.** -/
theorem Slots.findImport_eq (h : Slots imports asm) (c : LinkCall) :
    findImport asm.module c.module c.name = (imports.findIdx? c.names).map (8 * ·) := by
  cases hidx : imports.findIdx? c.names with
  | none =>
      rw [List.findIdx?_eq_none_iff] at hidx
      rw [findImport, Option.map_none, List.findSome?_eq_none_iff]
      rintro ⟨k, module', field, off⟩ hmem
      have hget := Std.TreeMap.mem_toList_iff_getElem?_eq_some.mp hmem
      rw [h.recorded, Option.map_eq_some_iff] at hget
      obtain ⟨i, hi, hnames⟩ := hget
      cases hnames
      exact (c.entry_eq i (8 * k)).trans (if_neg (by simp [hidx i (List.mem_of_getElem? hi)]))
  | some j =>
      obtain ⟨hj, hnamed, hfirst⟩ := List.findIdx?_eq_some_iff_getElem.mp hidx
      have hmem : (j, imports[j].module, imports[j].field, 8 * j) ∈ asm.module.imports.toList := by
        rw [Std.TreeMap.mem_toList_iff_getElem?_eq_some, h.recorded, List.getElem?_eq_getElem hj]
        rfl
      obtain ⟨before, after, hsplit⟩ := List.append_of_mem hmem
      rw [findImport, Option.map_some, List.findSome?_eq_some_iff]
      refine ⟨before, _, after, hsplit, ?_, ?_⟩
      · exact (c.entry_eq _ (8 * j)).trans (if_pos hnamed)
      · -- the entries before it have smaller indices
        rintro ⟨k, module', field, off⟩ hbefore
        have hget := Std.TreeMap.mem_toList_iff_getElem?_eq_some.mp
          (hsplit ▸ List.mem_append_left _ hbefore)
        rw [h.recorded, Option.map_eq_some_iff] at hget
        obtain ⟨i, hi, hnames⟩ := hget
        cases hnames
        have hord := asm.module.imports.ordered_keys_toList
        rw [hsplit, List.pairwise_append] at hord
        have hlt : k < j := Nat.compare_eq_lt.mp (hord.2.2 _ hbefore _ List.mem_cons_self)
        obtain ⟨hk, rfl⟩ := List.getElem?_eq_some_iff.mp hi
        exact (c.entry_eq _ (8 * k)).trans (if_neg (hfirst k hlt))

/-- An import is the first with its names. -/
def IsFirst (imports : List Import) (k : ℕ) : Prop :=
  ∀ (j : ℕ) (i i' : Import), imports[j]? = some i → imports[k]? = some i' → j < k →
    (i.module, i.field) ≠ (i'.module, i'.field)

/-- The address of the last call that names an import. -/
def lastLinked (calls : List LinkCall) (i : Import) : Option Word :=
  (calls.filter fun c => c.names i).getLast?.map LinkCall.addr

/-- The last call that names an import, when there is one more. -/
theorem lastLinked_concat (calls : List LinkCall) (c : LinkCall) (i : Import) :
    lastLinked (calls ++ [c]) i = if c.names i then some c.addr else lastLinked calls i := by
  rw [lastLinked, List.filter_append, List.filter_singleton]
  split_ifs with h
  · simp [h]
  · simp [h, lastLinked]

/-- What the slot of an import holds after one call. -/
theorem Slots.wordAt_link (h : Slots imports asm) (hi : imports[k]? = some i) (c : LinkCall)
    (hlink : asm.link c = .ok asm') :
    wordAt asm'.assembled (8 * k) =
      if imports.findIdx? c.names = some k then c.addr else wordAt asm.assembled (8 * k) := by
  rw [AssembledModule.link, h.linkImport, h.findImport_eq] at hlink
  cases hlink
  cases hidx : imports.findIdx? c.names with
  | none => simp
  | some j =>
      obtain ⟨hj, -⟩ := List.findIdx?_eq_some_iff_getElem.mp hidx
      have hle := h.slot_le (List.getElem?_eq_getElem hj)
      by_cases hjk : j = k
      · subst hjk
        simp only [Option.map_some, if_true]
        exact wordAt_patch hle
      · simp only [Option.map_some, Option.some.injEq, if_neg hjk]
        exact wordAt_patch_of_disjoint hle (by omega)

/-- The first import with some names is the one that a call with these names
finds. -/
theorem findIdx?_names_iff (hi : imports[k]? = some i) (c : LinkCall) :
    imports.findIdx? c.names = some k ↔ c.names i = true ∧ IsFirst imports k := by
  obtain ⟨hk, rfl⟩ := List.getElem?_eq_some_iff.mp hi
  rw [List.findIdx?_eq_some_iff_getElem]
  constructor
  · intro hidx
    obtain ⟨_, hnamed, hfirst⟩ := hidx
    refine ⟨hnamed, fun j i' i'' hj hk' hlt heq => ?_⟩
    obtain ⟨hj', rfl⟩ := List.getElem?_eq_some_iff.mp hj
    obtain ⟨_, rfl⟩ := List.getElem?_eq_some_iff.mp hk'
    obtain ⟨name, hname, hmodule, hfield⟩ := LinkCall.names_iff.mp hnamed
    obtain ⟨hm, hf⟩ := Prod.mk.inj heq
    exact hfirst j hlt (LinkCall.names_iff.mpr ⟨name, hname, hm.trans hmodule, hf.trans hfield⟩)
  · rintro ⟨hnamed, hfirst⟩
    refine ⟨hk, hnamed, fun j hlt hnamed' => ?_⟩
    have hj : j < imports.length := by omega
    obtain ⟨name, hname, hmodule, hfield⟩ := LinkCall.names_iff.mp hnamed
    obtain ⟨name', hname', hmodule', hfield'⟩ := LinkCall.names_iff.mp hnamed'
    cases hname.symm.trans hname'
    exact hfirst j _ _ (List.getElem?_eq_getElem hj) hi hlt
      (Prod.ext (hmodule'.trans hmodule.symm) (hfield'.trans hfield.symm))

open Classical in
/-- **What the slot of an import holds after any sequence of calls.** -/
theorem Slots.wordAt_links (h : Slots imports asm) (hi : imports[k]? = some i)
    (calls : List LinkCall) (hlinks : calls.foldlM AssembledModule.link asm = .ok asm') :
    wordAt asm'.assembled (8 * k) =
      if IsFirst imports k then (lastLinked calls i).getD (wordAt asm.assembled (8 * k))
      else wordAt asm.assembled (8 * k) := by
  -- over the calls from the last one back
  induction calls using List.reverseRecOn generalizing asm' with
  | nil =>
      cases hlinks
      simp [lastLinked]
  | append_singleton calls c ih =>
      obtain ⟨asm₁, hcalls, hl⟩ := h.links ⟨rfl, rfl, fun _ _ => rfl⟩ calls
      rw [List.foldlM_append, hcalls, Outcome.ok_bind] at hlinks
      simp only [List.foldlM_cons, List.foldlM_nil, bind_pure] at hlinks
      rw [(h.of_linked hl).wordAt_link hi c hlinks, ih hcalls, lastLinked_concat]
      by_cases hfirst : IsFirst imports k
      · by_cases hnames : c.names i = true
        · rw [if_pos ((findIdx?_names_iff hi c).mpr ⟨hnames, hfirst⟩), if_pos hfirst, if_pos hnames]
          rfl
        · rw [if_neg fun hidx => hnames ((findIdx?_names_iff hi c).mp hidx).1, if_neg hnames]
      · rw [if_neg fun hidx => hfirst ((findIdx?_names_iff hi c).mp hidx).2]
        simp only [if_neg hfirst]

/-! ## What is in a slot to begin with

The placeholder is emitted as data behind the label of the slot, and a data item is
not touched by the optimiser. -/

/-- What the documentation of `iced-x86` says of `dq`: it puts the word there. -/
def Encoder.Literal (E : Encoder) (len : Instr → ℕ) : Prop :=
  ∀ is bound assembly, E.assemble is bound = .ok assembly → ∀ (k : ℕ) (v : Word),
    is[k]? = some (.dq v) → wordAt assembly.bytes (codeSize len (is.take k)) = v

variable {V : Validator} {E : Encoder} {len : Instr → ℕ} {st : Compiling V} {its : List Item}
  {ps : List Payload} {b : Binding} {assembly : Assembly}

/-- Function imports have slots, and no body. -/
theorem Reading.exists_ils (h : Reading ps its st) (hord : Ordered ps)
    (hk : k < (functionImports ps).length) : ∃ l, st.ils[k]? = some l ∧ st.got[k]? = none := by
  obtain ⟨A, B, C, hphases⟩ := h.exists_phases hord
  have hlt : k < (targets A).length := by rwa [h.length_slots hphases]
  have htarget : (targets its)[k]? = some (targets A)[k] := by
    rw [hphases.split, targets, List.filterMap_append, List.filterMap_append, List.append_assoc,
      ← targets, List.getElem?_append_left hlt, List.getElem?_eq_getElem hlt]
  obtain ⟨it, hit, hx⟩ := List.mem_filterMap.mp (List.getElem_mem hlt)
  have hrank := hphases.imports it hit
  rw [h.emitted.ils, h.emitted.got, htarget]
  cases it with
  | slot i t l =>
      cases hx' : (targets A)[k] with
      | inl l' => exact ⟨l', rfl, rfl⟩
      | inr g => rw [hx'] at hx; cases hx
  | skip => cases hx
  | reserve t l g => cases hrank
  | body f g code => cases hrank

/-- Labels of bodies are those of defined functions. -/
theorem Reading.index_of_got (h : Reading ps its st) (hord : Ordered ps) {f : ℕ} {g : Label}
    (hg : st.got[f]? = some g) :
    ∃ k < (definedFunctions ps).length, f = (functionImports ps).length + k := by
  have hle : (functionImports ps).length ≤ f := by
    by_contra hlt
    obtain ⟨l, -, hnone⟩ := h.exists_ils hord (Nat.not_le.mp hlt)
    rw [hnone] at hg
    cases hg
  have hlt : f < (countedFunctions ps).length := by
    rw [h.emitted.got] at hg
    obtain ⟨x, hx, -⟩ := Option.bind_eq_some_iff.mp hg
    obtain ⟨hlt, -⟩ := List.getElem?_eq_some_iff.mp hx
    rwa [length_targets, h.declaredIndices] at hlt
  rw [countedFunctions_of_ordered hord, List.length_append] at hlt
  exact ⟨f - (functionImports ps).length, by omega, by omega⟩

/-- **A slot holds the placeholder to begin with.** -/
theorem Assembled.wordAt_slot (hE : E.Measured len) (hlit : E.Literal len) (hord : Ordered ps)
    (h : Assembled E len ps st its b assembly) {l : Label} (hl : st.ils[k]? = some l) :
    wordAt assembly.bytes (8 * k) = importPlaceholder := by
  obtain ⟨X, i, t, Y, hits, hlen, hrank⟩ := h.reading.exists_slot hord hl
  have hX : ∀ it ∈ X, it.rank ≠ 11 := fun it hit heq => absurd (heq ▸ hrank it hit) (by decide)
  have hmap : its.map Item.optimized = X ++ .slot i t l :: Y.map Item.optimized := by
    rw [hits, List.map_append, map_optimized_of_declarations hX]
    rfl
  have hsplit : b.instructions = (boundCodeOf X ++ [.zeroBytes, .zeroBytes]) ++
      .dq importPlaceholder :: boundCodeOf (Y.map Item.optimized) := by
    rw [h.instructions_eq hmap rfl]
    simp [Item.code]
  have hget : b.instructions[(boundCodeOf X ++ [Instr.zeroBytes, .zeroBytes]).length]? =
      some (.dq importPlaceholder) := by
    rw [hsplit, List.getElem?_append_right (Nat.le_refl _), Nat.sub_self]
    rfl
  have hword := hlit _ _ _ h.assembled _ _ hget
  rw [hsplit, List.take_left, codeSize_append, codeSize_boundCodeOf hE,
    codeSize_declarations hE hX, hlen] at hword
  simpa [hE.zeroBytes] using hword

/-- The bytes of `dq` are those of `LittleEndian::write_u64`. -/
theorem lowBytes_eq_leBytes (v : Word) : lowBytes 8 (v.toNat : ℤ) = leBytes v := by
  rw [lowBytes, leBytes]
  refine List.map_congr_left fun i _ => ?_
  apply UInt8.toNat_inj.mp
  have hint : (v.toNat : ℤ) / 256 ^ i % 256 = ((v.toNat / 256 ^ i % 256 : ℕ) : ℤ) := by
    rw [Int.natCast_emod, Int.natCast_ediv, Int.natCast_pow]
    rfl
  rw [hint, Int.toNat_natCast, UInt8.toNat_ofNat', UInt8.toNat_ofBitVec, Mem.byteOf,
    BitVec.extractLsb'_toNat, Nat.shiftRight_eq_div_pow, Nat.pow_mul, Nat.mod_mod]

/-- A word among other bytes. -/
theorem wordAt_append (before after : List UInt8) (v : Word) :
    wordAt (before ++ leBytes v ++ after) before.length = v := by
  have hpatch : patch (before ++ leBytes v ++ after) before.length (leBytes v) =
      before ++ leBytes v ++ after := by
    rw [patch, List.append_assoc before, List.take_left, ← List.append_assoc before,
      ← List.length_append, List.drop_left]
  rw [← hpatch]
  exact wordAt_patch (by simp)

/-- The assembler of the examples puts words down as they are. -/
theorem Encoder.reference_literal : Encoder.reference.Literal encodedLength := by
  intro is bound assembly h k v hk
  rw [Encoder.reference] at h
  dsimp only at h
  split at h
  · rename_i bytes hbytes
    cases h
    obtain ⟨hlt, hv⟩ := List.getElem?_eq_some_iff.mp hk
    have hsplit : is = is.take k ++ .dq v :: is.drop (k + 1) := by
      rw [← hv, ← List.drop_eq_getElem_cons hlt, List.take_append_drop]
    rw [hsplit] at hbytes
    obtain ⟨before, here, after, rfl, hhere, hlen⟩ := encodeFrom_append hbytes
    cases hhere
    rw [lowBytes_eq_leBytes, codeSize, ← hlen]
    exact wordAt_append before after v
  · cases h

/-! ## Calls

Two instructions: the word of the slot is moved to `r10`, and the address in `r10`
is called.  No label stands between them, so whoever executes the call has executed
the move. -/

/-- The program of a linked module: the words that calls load are in its binary. -/
def linkedProgram (st : Compiling V) (b : Binding) (assembly : Assembly) (asm : AssembledModule)
    (address : ℕ → Word) : Program :=
  st.program address fun l => wordAt asm.assembled ((resolveLabel assembly b.bound l).getD 0)

/-- The address a call through a register goes to, if one is next. -/
def callee (P : Program) (c : Cfg) : Option Word :=
  match P.code[c.pc]? with
  | some (.callReg r) => some (c.state.regs r)
  | _ => none

/-- The step before a call through a slot. -/
theorem callee_of_step {P : Program} {env : Env} {pc : ℕ} {s : X86.State} {fs : List Frame}
    {l : Label} {c : Cfg} (hpc : P.code[pc]? = some (.movLabel .r10 l))
    (hnext : P.code[pc + 1]? = some (.callReg .r10)) (h : Step P env ⟨pc, s, fs⟩ c) :
    callee P c = some (P.word l) := by
  cases h with
  | prim hi hs =>
      rw [hpc] at hi
      cases hi
      cases hs
  | word hi =>
      rw [hpc] at hi
      cases hi
      rw [callee]
      dsimp only
      rw [hnext]
      exact congrArg some (State.set_regs_self _ _ _)
  | call hi => rw [hpc] at hi; cases hi
  | outside hi => rw [hpc] at hi; cases hi
  | ret hi => rw [hpc] at hi; cases hi

/-- The code of a call of an import. -/
theorem handleInstruction_import {ctx : Context} {locals : List ℕ} {call : List Instr} {l : Label}
    (hils : ctx.ils[k]? = some l) (hgot : ctx.got[k]? = none)
    (h : handleInstruction ctx locals (.call k) = .ok call) :
    ∃ args results, call = args ++ [.movLabel .r10 l, .callReg .r10] ++ results := by
  simp only [handleInstruction, Outcome.bind_eq_ok, Outcome.pure_eq_ok, Outcome.ok.injEq] at h
  obtain ⟨ty, -, order, -, args, -, results, -, rfl⟩ := h
  exact ⟨args, results, by rw [callCode, hgot, hils]⟩

open Classical in
/-- **Where a call of import `k` goes**, after any sequence of calls of
`link_import`. -/
theorem Assembled.callee_import (hE : E.Measured len) (hlit : E.Literal len) (hord : Ordered ps)
    (h : Assembled E len ps st its b assembly)
    (hslots : Slots (importedFunctions ps) asm) (hasm : asm.assembled = assembly.bytes)
    (hi : (importedFunctions ps)[k]? = some i) {calls : List LinkCall}
    (hlinks : calls.foldlM AssembledModule.link asm = .ok asm') :
    ∃ l, st.ils[k]? = some l ∧ st.got[k]? = none ∧ ∀ address,
      (linkedProgram st b assembly asm' address).word l =
        if IsFirst (importedFunctions ps) k then (lastLinked calls i).getD importPlaceholder
        else importPlaceholder := by
  obtain ⟨hk, -⟩ := List.getElem?_eq_some_iff.mp hi
  rw [length_importedFunctions] at hk
  obtain ⟨l, hils, hgot⟩ := h.reading.exists_ils hord hk
  refine ⟨l, hils, hgot, fun address => ?_⟩
  have hslot := h.wordAt_slot hE hlit hord hils
  change wordAt asm'.assembled ((Parawasm.resolveLabel assembly b.bound l).getD 0) = _
  rw [h.resolve_slot hE hord hils, Option.getD_some, hslots.wordAt_links hi calls hlinks, hasm,
    hslot]

/-- A call at `pc` of a linked program goes to an address. -/
def JumpsTo (P : Program) (pc : ℕ) (w : Word) : Prop :=
  ∀ (env : Env) (s : X86.State) (fs : List Frame) (c : Cfg), Step P env ⟨pc, s, fs⟩ c →
    callee P c = some w

/-- A call through `r10` that stands behind the move goes to what the move has
loaded, and to nothing else. -/
theorem jumpsTo_iff {P : Program} {pc : ℕ} {l : Label} {w : Word}
    (hpc : P.code[pc]? = some (.movLabel .r10 l))
    (hnext : P.code[pc + 1]? = some (.callReg .r10)) : JumpsTo P pc w ↔ P.word l = w := by
  constructor
  · intro h
    have hstep : Step P returning ⟨pc, State.ofStack 0 0 [], []⟩ ⟨pc + 1, _, []⟩ := .word hpc
    exact Option.some.inj ((callee_of_step hpc hnext hstep).symm.trans (h _ _ _ _ hstep))
  · rintro rfl env s fs c hstep
    exact callee_of_step hpc hnext hstep

/-- **Which imports are reached by linking**: a call of import `k` executed after
any sequence of calls of `link_import` goes to the address of the last one that
names the import, or to the placeholder if there is none, exactly if import `k`
is the first with its two names.  Otherwise it goes to the placeholder whatever is
linked. -/
theorem imports_reached_iff {V : Validator} {E : Encoder} {P : Parser} {len : Instr → ℕ}
    {n : ℕ} {module : List UInt8} {asm : AssembledModule} (hE : E.Measured len)
    (hlit : E.Literal len) (hV : V.Sound) (hP : P.Documented)
    (h : compileWithin E P V n module = some (.ok asm)) :
    ∃ (st : Compiling V) (b : Binding) (assembly : Assembly) (imports : List Import),
      compilePayloads E (scan P module).1 = .ok st ∧ bindLabels E st = .ok b ∧
      E.assemble b.instructions b.bound = .ok assembly ∧
      imports = importedFunctions (scan P module).1 ∧
      ∀ calls : List LinkCall, ∃ asm', calls.foldlM AssembledModule.link asm = .ok asm' ∧
        ∀ (k : ℕ) (i : Import), imports[k]? = some i → ∃ l, st.ils[k]? = some l ∧
          -- the code of a call of import `k`
          (∀ locals call, handleInstruction st.toContext locals (.call k) = .ok call →
            ∃ args results, call = args ++ [.movLabel .r10 l, .callReg .r10] ++ results) ∧
          -- wherever it stands in the program
          ∀ (address : ℕ → Word) (pc : ℕ),
            (linkedProgram st b assembly asm' address).code[pc]? = some (.movLabel .r10 l) →
            (linkedProgram st b assembly asm' address).code[pc + 1]? = some (.callReg .r10) →
            (JumpsTo (linkedProgram st b assembly asm' address) pc
                ((lastLinked calls i).getD importPlaceholder) ↔
              IsFirst imports k ∨ lastLinked calls i = none ∨
                lastLinked calls i = some importPlaceholder) := by
  obtain ⟨st, hst, hasm⟩ := compileWithin_eq_ok hP h
  have hord := hV.ordered _ (accepts_of_compilePayloads hst)
  have hfold := foldlM_of_compilePayloads hst
  obtain ⟨its, b, assembly, hfinal, hb, rfl⟩ := exists_assembled hE hord hfold hasm
  have hslots := hfinal.slots hE hord hfold
  refine ⟨st, b, assembly, _, hst, hb, hfinal.assembled, rfl, fun calls => ?_⟩
  obtain ⟨asm', hlinks, -⟩ := hslots.links ⟨rfl, rfl, fun _ _ => rfl⟩ calls
  refine ⟨asm', hlinks, fun k i hi => ?_⟩
  obtain ⟨l, hils, hgot, hword⟩ := hfinal.callee_import hE hlit hord hslots rfl hi hlinks
  refine ⟨l, hils, fun locals call => handleInstruction_import hils hgot,
    fun address pc hpc hnext => ?_⟩
  rw [jumpsTo_iff hpc hnext, hword]
  by_cases hfirst : IsFirst (importedFunctions (scan P module).1) k
  · rw [if_pos hfirst]
    exact iff_of_true rfl (.inl hfirst)
  · simp only [hfirst, if_false, false_or]
    cases lastLinked calls i with
    | none => simp
    | some w => simp [eq_comm]

/-- Two imports have different names. -/
theorem isFirst_of_distinctImports {ps : List Payload} (h : DistinctImports ps) (k : ℕ) :
    IsFirst (importedFunctions ps) k := by
  have hsub : (importedFunctions ps).Sublist (Wasm.imports ps) := by
    rw [importedFunctions_eq_filter]
    exact List.filter_sublist
  have hnodup : ((importedFunctions ps).map fun i => (i.module, i.field)).Nodup :=
    List.Nodup.sublist (hsub.map _) h
  intro j i i' hj hk hlt heq
  have hinj : ((importedFunctions ps).map fun i => (i.module, i.field))[j]? =
      ((importedFunctions ps).map fun i => (i.module, i.field))[k]? := by
    rw [List.getElem?_map, List.getElem?_map, hj, hk]
    exact congrArg some heq
  have hbound : j < ((importedFunctions ps).map fun i => (i.module, i.field)).length := by
    rw [List.length_map]
    exact (List.getElem?_eq_some_iff.mp hj).1
  exact absurd ((List.getElem?_inj hbound hnodup).mp hinj) hlt.ne

/-- **Linking reaches every import**, since the validator lets no two names be
imported twice: a call of import `k` executed after any sequence of calls of
`link_import` goes to the address of the last one that names the import, or to the
placeholder if there is none.

It is said of the code, and then of every place in the optimised program where this
code stands.  That a linked word is loaded is not asked: the word is read out of the
binary that `link_import` has patched. -/
theorem imports_reached {V : Validator} {E : Encoder} {P : Parser} {len : Instr → ℕ}
    {n : ℕ} {module : List UInt8} {asm : AssembledModule} (hE : E.Measured len)
    (hlit : E.Literal len) (hV : V.Sound) (hdistinct : ∀ ps, V.Accepts ps → DistinctImports ps)
    (hP : P.Documented) (h : compileWithin E P V n module = some (.ok asm)) :
    ∃ (st : Compiling V) (b : Binding) (assembly : Assembly) (imports : List Import),
      compilePayloads E (scan P module).1 = .ok st ∧ bindLabels E st = .ok b ∧
      E.assemble b.instructions b.bound = .ok assembly ∧
      imports = importedFunctions (scan P module).1 ∧
      ∀ calls : List LinkCall, ∃ asm', calls.foldlM AssembledModule.link asm = .ok asm' ∧
        ∀ (k : ℕ) (i : Import), imports[k]? = some i → ∃ l, st.ils[k]? = some l ∧
          -- the code of a call of import `k`
          (∀ locals call, handleInstruction st.toContext locals (.call k) = .ok call →
            ∃ args results, call = args ++ [.movLabel .r10 l, .callReg .r10] ++ results) ∧
          -- wherever it stands in the program
          ∀ (address : ℕ → Word) (pc : ℕ),
            (linkedProgram st b assembly asm' address).code[pc]? = some (.movLabel .r10 l) →
            (linkedProgram st b assembly asm' address).code[pc + 1]? = some (.callReg .r10) →
            JumpsTo (linkedProgram st b assembly asm' address) pc
              ((lastLinked calls i).getD importPlaceholder) := by
  obtain ⟨st, b, assembly, imports, hst, hb, hassembled, rfl, hlink⟩ :=
    imports_reached_iff hE hlit hV hP h
  have himports := hdistinct _ (accepts_of_compilePayloads hst)
  refine ⟨st, b, assembly, _, hst, hb, hassembled, rfl, fun calls => ?_⟩
  obtain ⟨asm', hlinks, hreach⟩ := hlink calls
  refine ⟨asm', hlinks, fun k i hi => ?_⟩
  obtain ⟨l, hl, hcode, hjump⟩ := hreach k i hi
  exact ⟨l, hl, hcode, fun address pc hpc hnext =>
    (hjump address pc hpc hnext).mpr (.inl (isFirst_of_distinctImports himports k))⟩

/-- A module that imports `env.f` and `env.g`, and whose one function calls both. -/
def twoImportsModule : Script :=
  [(preamble, .version 1),
    ([0x01, 0x04, 0x01, 0x60, 0x00, 0x00], .typeSection ⟨[.func ⟨[], []⟩], none⟩),
    ([0x02, 0x11, 0x02, 0x03, 0x65, 0x6e, 0x76, 0x01, 0x66, 0x00, 0x00, 0x03, 0x65, 0x6e, 0x76, 0x01,
      0x67, 0x00, 0x00],
      .importSection ⟨[⟨"env", some "f", .function 0⟩, ⟨"env", some "g", .function 0⟩], none⟩),
    ([0x03, 0x02, 0x01, 0x00], .functionSection ⟨[0], none⟩),
    ([0x0a, 0x08, 0x01], .codeSectionStart 1),
    ([0x06, 0x00, 0x10, 0x00, 0x10, 0x01, 0x0b],
      .codeSectionEntry ⟨⟨[], none⟩, ⟨[.call 0, .call 1, .end], none⟩⟩)]

/-- The code of that module. -/
def twoImportsCode : List Instr :=
  [.zeroBytes, .dq importPlaceholder, .zeroBytes, .dq importPlaceholder, .dq 0, .push .rbp,
    .mov .rbp .rsp, .movLabel .r10 2, .callReg .r10, .movLabel .r10 4, .callReg .r10,
    .mov .rsp .rbp, .pop .rbp, .ret]

/-- That is what `compile` makes of it. -/
theorem twoImportsModule_code :
    (optimize (Script.compiling twoImportsModule).instructions
      (Script.compiling twoImportsModule).labelIndices).1 = twoImportsCode := by
  decide +kernel

/-- `env.f` linked, then `env.g`, then `env.f` once more. -/
def twoImportsCalls : List LinkCall :=
  [⟨"env", some "f", 0x1000⟩, ⟨"env", some "g", 0x2000⟩, ⟨"env", some "f", 0x3000⟩]

/-- The first call goes to where `env.f` was linked last, the second to `env.g`. -/
theorem imports_reached_instance : ∃ (asm asm' : AssembledModule) (b : Binding)
    (assembly : Assembly),
    compileWithin Encoder.reference (parserOf twoImportsModule) Validator.reference 20
      (Script.bytes twoImportsModule) = some (.ok asm) ∧
    twoImportsCalls.foldlM AssembledModule.link asm = .ok asm' ∧
    JumpsTo (linkedProgram (Script.compiling twoImportsModule) b assembly asm'
      (BitVec.ofNat 64)) 7 0x3000 ∧
    JumpsTo (linkedProgram (Script.compiling twoImportsModule) b assembly asm'
      (BitVec.ofNat 64)) 9 0x2000 := by
  obtain ⟨asm, h⟩ : ∃ asm, compileWithin Encoder.reference (parserOf twoImportsModule)
      Validator.reference 20 (Script.bytes twoImportsModule) = some (.ok asm) := ⟨_, rfl⟩
  obtain ⟨st, b, assembly, imports, hst, -, -, himports, hlink⟩ :=
    imports_reached Encoder.reference_measured Encoder.reference_literal
      Validator.reference_sound (fun _ => Validator.reference_distinctImports)
      (parserOf_documented twoImportsModule) h
  have hcomp : compilePayloads Encoder.reference (Script.payloads twoImportsModule) =
      .ok (Script.compiling twoImportsModule) := rfl
  obtain rfl : st = Script.compiling twoImportsModule := Outcome.ok.inj (hst.symm.trans hcomp)
  obtain ⟨asm', hlinks, hreach⟩ := hlink twoImportsCalls
  have hf : imports[0]? = some ⟨"env", some "f", .function 0⟩ := by rw [himports]; rfl
  have hg : imports[1]? = some ⟨"env", some "g", .function 0⟩ := by rw [himports]; rfl
  obtain ⟨l, hl, -, hjump⟩ := hreach 0 _ hf
  have hl' : (Script.compiling twoImportsModule).ils[0]? = some 2 := by decide +kernel
  obtain rfl : l = 2 := Option.some.inj (hl.symm.trans hl')
  obtain ⟨m, hm, -, hjump'⟩ := hreach 1 _ hg
  have hm' : (Script.compiling twoImportsModule).ils[1]? = some 4 := by decide +kernel
  obtain rfl : m = 4 := Option.some.inj (hm.symm.trans hm')
  have hcode : ∀ pc : ℕ, (linkedProgram (Script.compiling twoImportsModule) b assembly asm'
      (BitVec.ofNat 64)).code[pc]? = twoImportsCode[pc]? := by
    intro pc
    rw [← twoImportsModule_code]
    rfl
  exact ⟨asm, asm', b, assembly, h, hlinks, hjump (BitVec.ofNat 64) 7 (hcode 7) (hcode 8),
    hjump' (BitVec.ofNat 64) 9 (hcode 9) (hcode 10)⟩

end ParaOS.Parawasm

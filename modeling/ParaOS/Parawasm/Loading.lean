import ParaOS.Machine.Bytes
import ParaOS.Parawasm.LinkedModules
import ParaOS.Parawasm.Relinking

/-!
# Modules in memory

Binaries are put into memory beside each other, `link_import` is called with addresses
of functions of any of them, and functions are called at their entry points.  An
`Image` is one such binary.  The instructions of its program are where the lengths of
those in front of them add up to, and the words that calls load are in its slots.

Images that do not overlap are modules that are linked to each other
(`LinkedImages.modules`).  What the functions compute through each other, calls of their
entry points return (`loaded_calls_return`).

## Two levels of what is asked

`Image.Made` is about layout alone: the module is accepted, has no modules inside, and
the binary is what `compile` and `link_import` make of it.  Entry points, slots and
addresses of instructions need no more, so these results are about any functions.
`Compiled` is asked only where it matters what the functions compute, which is in
`LinkedImages`.

## What is load-bearing

Steps take their instructions from the program of an image and not from memory.  That is
what a processor does as long as the images are in memory and nothing is written over
them, which is why calls are made in states that are `Ready`: the images are in memory
with their links, and none of them reaches into the stack from `low` up to the return
address.  The functions then have to come by with the bytes between `low` and `rsp`, the
need of compiled code being exactly that of the functions it was compiled from.  Without
a `low` a call could come down into a binary below it.

An import that is linked must be the first of its name, for `link_import` writes the slot
of that one only.
-/

namespace ParaOS.Parawasm

open Machine X86 Wasm

/-! ## What is asked of the assembler

That an instruction is at least one byte long is what keeps two of them from
standing at one address.  Data need not be: an item that marks a label takes up
nothing. -/

/-- Instructions take up bytes. -/
def Encoder.Occupies (E : Encoder) (len : Instr → ℕ) : Prop :=
  ∀ is bound assembly, E.assemble is bound = .ok assembly →
    ∀ i ∈ is, isData i = false → 0 < len i

/-- No instruction is encoded as nothing. -/
theorem encode_ne_nil {address : Label → ℕ} {ip : ℕ} {i : Instr} (hi : isData i = false) :
    encode address ip i ≠ some [] := by
  intro h
  cases i with
  | add32 dst src => simp [encode, onRegs32] at h
  | sub32 dst src => simp [encode, onRegs32] at h
  | push r => simp [encode] at h
  | pop r => simp [encode] at h
  | callReg r => simp [encode] at h
  | dq v => cases hi
  | zeroBytes => cases hi
  | _ => cases h

/-- The assembler of the examples is such. -/
theorem Encoder.reference_occupies : Encoder.reference.Occupies encodedLength := by
  intro is bound assembly h i hmem hi
  rw [Encoder.reference] at h
  dsimp only at h
  split at h
  · rename_i bytes hbytes
    obtain ⟨before, after, rfl⟩ := List.append_of_mem hmem
    obtain ⟨_, here, _, -, hhere, -⟩ := encodeFrom_append hbytes
    rw [← length_encode hhere, List.length_pos_iff]
    rintro rfl
    exact encode_ne_nil hi hhere
  · cases h

/-! ## Sizes

Offsets of instructions are sums of lengths, and grow along the code. -/

variable {len : Instr → ℕ}

/-- The size of a piece of code is that of its parts. -/
theorem codeSize_take_add (code : List Instr) (j n : ℕ) :
    codeSize len (code.take (j + n)) =
      codeSize len (code.take j) + codeSize len ((code.drop j).take n) := by
  rw [List.take_add, codeSize_append]

/-- A beginning of it is no larger. -/
theorem codeSize_take_le (code : List Instr) (k : ℕ) :
    codeSize len (code.take k) ≤ codeSize len code := by
  conv_rhs => rw [← List.take_append_drop k code, codeSize_append]
  exact Nat.le_add_right _ _

/-- An instruction that takes up bytes ends behind its start. -/
theorem codeSize_take_lt {code : List Instr} {j k : ℕ} {i : Instr} (hi : code[j]? = some i)
    (hpos : 0 < len i) (hlt : j < k) : codeSize len (code.take j) < codeSize len (code.take k) := by
  obtain ⟨n, rfl⟩ := Nat.exists_eq_add_of_lt hlt
  obtain ⟨hj, rfl⟩ := List.getElem?_eq_some_iff.mp hi
  rw [Nat.add_assoc, codeSize_take_add, List.drop_eq_getElem_cons hj, List.take_succ_cons,
    codeSize_cons]
  omega

/-! ## Where functions start

An entry point is the offset of a label in the binary, and it is found as the index
of an instruction in the program.  That the two belong together is the same for any
function, so it is proved of layouts and asks nothing of types. -/

variable {V : Validator} {E : Encoder} {ps : List Payload} {σ : Compiling V} {its : List Item}
  {b : Binding} {assembly : Assembly} {asm : AssembledModule}

/-- The optimised code is what is assembled, without the marks of labels. -/
theorem Assembled.code_eq (h : Assembled E len ps σ its b assembly) :
    (optimize σ.instructions σ.labelIndices).1 = codeOf (its.map Item.optimized) := by
  have hem := h.reading.emitted
  rw [hem.instructions, hem.labelIndices, optimize_items h.compiled.closed]

/-- Its size is that of the binary. -/
theorem Assembled.codeSize_eq (hE : E.Measured len) (h : Assembled E len ps σ its b assembly) :
    codeSize len (optimize σ.instructions σ.labelIndices).1 = assembly.bytes.length := by
  rw [hE.bytes _ _ _ h.assembled, h.bound.instructions, codeSize_boundCodeOf hE, h.code_eq]

/-- Instructions stay when labels are bound. -/
theorem mem_boundCodeOf {i : Instr} (h : i ∈ codeOf its) : i ∈ boundCodeOf its := by
  obtain ⟨it, hit, hi⟩ := List.mem_flatMap.mp h
  refine List.mem_flatMap.mpr ⟨it, hit, ?_⟩
  rw [Item.boundCode]
  split
  · exact hi
  · rename_i m _
    rw [← List.take_append_drop m.1 it.code, List.mem_append] at hi
    exact List.mem_append.mpr (hi.imp_right (List.mem_cons_of_mem _))

/-- Instructions of a binary take up bytes. -/
theorem Assembled.len_pos (hocc : E.Occupies len) (h : Assembled E len ps σ its b assembly)
    {j : ℕ} {i : Instr} (hi : (optimize σ.instructions σ.labelIndices).1[j]? = some i)
    (hdata : isData i = false) : 0 < len i := by
  have hmem := List.mem_of_getElem? hi
  rw [h.code_eq] at hmem
  refine hocc _ _ _ h.assembled i ?_ hdata
  rw [h.bound.instructions]
  exact mem_boundCodeOf hmem

/-- The entry point of a body is where its label stands. -/
theorem Assembled.entryPoint_body (hE : E.Measured len) (hord : Ordered ps)
    (h : Assembled E len ps σ its b assembly) (hasm : asm.module.functionBodies = b.functionBodies)
    (address : ℕ → Word) (word : Label → Word) {f : ℕ} {g : Label} {code : List Instr}
    (hit : .body f g code ∈ its) :
    ∃ j, (σ.program address word).target g = some j ∧
      asm.module.functionEntryPoint f =
        some (codeSize len ((optimize σ.instructions σ.labelIndices).1.take j)) := by
  obtain ⟨k, hk⟩ := mem_body? hit
  obtain ⟨A, B, hits, hsize⟩ := h.exists_body hE hord hk
  have hlab := labelled_optimized h.reading h.compiled
  have hcreated := nodup_created h.reading
  have htake : (codeOf (its.map Item.optimized)).take (codeOf A).length = codeOf A := by
    rw [hits, codeOf_append, List.take_left]
  rw [h.reading.program_eq h.compiled, h.code_eq,
    (h.startsAt hE hord hasm hk).entryPoint, ← hsize]
  refine ⟨(codeOf A).length, ?_, by rw [htake]⟩
  rw [hits] at hlab hcreated ⊢
  exact target_split hlab hcreated (m := (0, g)) rfl

/-- **The entry points of a binary are where the labels of functions stand.** -/
theorem Assembled.entryPoint_iff (hE : E.Measured len) (hord : Ordered ps)
    (h : Assembled E len ps σ its b assembly) (hasm : asm.module.functionBodies = b.functionBodies)
    (address : ℕ → Word) (word : Label → Word) {f off : ℕ} :
    asm.module.functionEntryPoint f = some off ↔
      ∃ g j, σ.got[f]? = some g ∧ (σ.program address word).target g = some j ∧
        codeSize len ((optimize σ.instructions σ.labelIndices).1.take j) = off := by
  constructor
  · intro hf
    rw [functionEntryPoint_eq, hasm] at hf
    have hsome : (b.functionBodies[f]?).isSome := by
      rw [hf]
      rfl
    obtain ⟨g, hg⟩ := (h.isSome_entry f).mp hsome
    rw [bodyOf_eq] at hg
    obtain ⟨⟨f', g', code⟩, hmem, heq⟩ := List.mem_map.mp hg
    cases heq
    obtain ⟨k, hk⟩ := List.mem_iff_getElem?.mp hmem
    obtain ⟨j, hj, hentry⟩ :=
      h.entryPoint_body hE hord hasm address word (mem_of_body? hk)
    rw [functionEntryPoint_eq, hasm, hf] at hentry
    exact ⟨g', j, (h.compiled k f' g' code hk).2.1, hj, (Option.some.inj hentry).symm⟩
  · rintro ⟨g, j, hg, hj, rfl⟩
    obtain ⟨k, _, _, _, _, _, rfl, hbody, -⟩ := h.reading.exists_compiled h.compiled hg hj
    obtain ⟨hlt, -⟩ := List.getElem?_eq_some_iff.mp hbody
    obtain ⟨⟨f, g', code⟩, hk⟩ : ∃ x, (its.filterMap Item.body?)[k]? = some x :=
      ⟨_, List.getElem?_eq_getElem (h.reading.length_bodies ▸ hlt)⟩
    obtain ⟨rfl, hg', -⟩ := h.compiled k f g' code hk
    cases hg.symm.trans hg'
    obtain ⟨j', hj', hentry⟩ :=
      h.entryPoint_body hE hord hasm address word (mem_of_body? hk)
    cases hj.symm.trans hj'
    exact hentry

/-! ## Images

An image keeps everything that its binary was made from, so that its layout can be
computed and its slots be looked up.  Most of it is determined by the payloads and
the calls of `link_import`; `Made` says so. -/

/-- A binary in memory: what was compiled, how it was bound and assembled, the calls of
`link_import` since, what they left, and the offset it was put at. -/
structure Image (V : Validator) where
  payloads : List Payload
  compiling : Compiling V
  binding : Binding
  assembly : Assembly
  calls : List LinkCall
  linked : AssembledModule
  base : ℕ

/-- The address of an instruction of an image. -/
def Image.address (len : Instr → ℕ) (m : Image V) (k : ℕ) : Word :=
  BitVec.ofNat 64
    (m.base + codeSize len ((optimize m.compiling.instructions m.compiling.labelIndices).1.take k))

/-- The word at a label of an image. -/
def Image.word (m : Image V) (l : Label) : Word :=
  wordAt m.linked.assembled ((resolveLabel m.assembly m.binding.bound l).getD 0)

/-- The program of an image. -/
def Image.program (len : Instr → ℕ) (m : Image V) : Program :=
  m.compiling.program (m.address len) m.word

/-- An address lies in an image. -/
def Image.Covers (m : Image V) (a : Word) : Prop :=
  m.base ≤ a.toNat ∧ a.toNat < m.base + m.assembly.bytes.length

/-- An image is what `compile` and `link_import` make of a module without modules inside. -/
structure Image.Made (E : Encoder) (m : Image V) : Prop where
  sound : V.Sound
  flat : ∀ p ∈ m.payloads, p.nests = false
  compiled : compilePayloads E m.payloads = .ok m.compiling
  bound : bindLabels E m.compiling = .ok m.binding
  assembled : E.assemble m.binding.instructions m.binding.bound = .ok m.assembly
  linked : m.calls.foldlM AssembledModule.link
    ⟨{ m.compiling.module with functionBodies := m.binding.functionBodies }, m.assembly.bytes⟩ =
      .ok m.linked

/-- Such an image is in memory, and its addresses do not overflow. -/
structure Image.Loaded (E : Encoder) (m : Image V) : Prop extends m.Made E where
  inside : m.base + m.assembly.bytes.length ≤ 2 ^ 64

variable {m : Image V}

/-- Its payloads are in order, as the validator is sound. -/
theorem Image.Made.ordered (h : m.Made E) : Ordered m.payloads :=
  (h.sound.valid _ (accepts_of_compilePayloads h.compiled) h.flat).ordered

/-- It is assembled from items. -/
theorem Image.Made.exists_assembled (hE : E.Measured len) (h : m.Made E) :
    ∃ its, Assembled E len m.payloads m.compiling its m.binding m.assembly := by
  have hasm : assembleModule E m.compiling = .ok
      ⟨{ m.compiling.module with functionBodies := m.binding.functionBodies },
        m.assembly.bytes⟩ := by
    rw [assembleModule, h.bound, Outcome.ok_bind, h.assembled]
    rfl
  obtain ⟨its, b, assembly, hfinal, hb, -⟩ := Parawasm.exists_assembled hE h.ordered
    (foldlM_of_compilePayloads h.compiled) hasm
  cases h.bound.symm.trans hb
  cases h.assembled.symm.trans hfinal.assembled
  exact ⟨its, hfinal⟩

/-- Its slots are where its imports say. -/
theorem Image.Made.slots (hE : E.Measured len) (h : m.Made E) :
    Slots (importedFunctions m.payloads)
      ⟨{ m.compiling.module with functionBodies := m.binding.functionBodies },
        m.assembly.bytes⟩ := by
  obtain ⟨its, hfinal⟩ := h.exists_assembled hE
  exact hfinal.slots hE h.ordered (foldlM_of_compilePayloads h.compiled)

/-- Linking leaves the entry points as they are. -/
theorem Image.Made.functionBodies (hE : E.Measured len) (h : m.Made E) :
    m.linked.module.functionBodies = m.binding.functionBodies := by
  obtain ⟨asm, hasm, hl⟩ := (h.slots hE).links ⟨rfl, rfl, fun _ _ => rfl⟩ m.calls
  cases h.linked.symm.trans hasm
  rw [hl.module]

/-- A call of an import loads the word in its slot. -/
theorem Image.Made.word_eq (hE : E.Measured len) (h : m.Made E) {f : ℕ} {l : Label}
    (hl : m.compiling.ils[f]? = some l) : m.word l = wordAt m.linked.assembled (8 * f) := by
  obtain ⟨its, hfinal⟩ := h.exists_assembled hE
  rw [Image.word, hfinal.resolve_slot hE h.ordered hl]
  rfl

/-- It holds the address of the last call that names the import. -/
theorem Image.Made.slot_eq (hE : E.Measured len) (h : m.Made E) {f : ℕ} {i : Import}
    {w : Word} (hi : (importedFunctions m.payloads)[f]? = some i)
    (hfirst : IsFirst (importedFunctions m.payloads) f) (hw : lastLinked m.calls i = some w) :
    wordAt m.linked.assembled (8 * f) = w := by
  rw [(h.slots hE).wordAt_links hi m.calls h.linked, if_pos hfirst, hw]
  rfl

/-- Linking leaves the binary as long as it was when it was assembled. -/
theorem Image.Made.length_linked (hE : E.Measured len) (h : m.Made E) :
    m.linked.assembled.length = m.assembly.bytes.length := by
  obtain ⟨asm, hasm, hl⟩ := (h.slots hE).links ⟨rfl, rfl, fun _ _ => rfl⟩ m.calls
  cases h.linked.symm.trans hasm
  exact hl.length

/-- Offsets in an image, and the addresses of its instructions. -/
theorem Image.Loaded.toNat_address (hE : E.Measured len) (hocc : E.Occupies len) (h : m.Loaded E)
    {j : ℕ} {i : Instr} (hi : (m.program len).code[j]? = some i) (hdata : isData i = false) :
    (m.address len j).toNat = m.base + codeSize len ((m.program len).code.take j) ∧
      codeSize len ((m.program len).code.take j) < m.assembly.bytes.length := by
  obtain ⟨its, hfinal⟩ := h.exists_assembled hE
  have hlt := codeSize_take_lt hi (hfinal.len_pos hocc hi hdata) (Nat.lt_add_one j)
  have hle : codeSize len ((m.program len).code.take (j + 1)) ≤ codeSize len (m.program len).code :=
    codeSize_take_le _ _
  have hsize : codeSize len (m.program len).code = m.assembly.bytes.length := hfinal.codeSize_eq hE
  have hinside := h.inside
  refine ⟨?_, by omega⟩
  change (BitVec.ofNat 64 (m.base + codeSize len ((m.program len).code.take j))).toNat = _
  rw [BitVec.toNat_ofNat, Nat.mod_eq_of_lt (by omega)]

/-- An instruction of an image lies in it. -/
theorem Image.Loaded.covers (hE : E.Measured len) (hocc : E.Occupies len) (h : m.Loaded E) {j : ℕ}
    {i : Instr} (hi : (m.program len).code[j]? = some i) (hdata : isData i = false) :
    m.Covers (m.address len j) := by
  obtain ⟨haddress, hlt⟩ := h.toNat_address hE hocc hi hdata
  rw [Image.Covers, haddress]
  omega

/-- **Different instructions of an image have different addresses.** -/
theorem Image.Loaded.separate (hE : E.Measured len) (hocc : E.Occupies len) (h : m.Loaded E) :
    (m.program len).Separate := by
  obtain ⟨its, hfinal⟩ := h.exists_assembled hE
  intro j k i i' hj hk hi hi' heq
  have haddress := congrArg BitVec.toNat heq
  change (m.address len j).toNat = (m.address len k).toNat at haddress
  rw [(h.toNat_address hE hocc hj hi).1, (h.toNat_address hE hocc hk hi').1] at haddress
  rcases Nat.lt_trichotomy j k with hlt | heq | hlt
  · have := codeSize_take_lt hj (hfinal.len_pos hocc hj hi) hlt
    omega
  · exact heq
  · have := codeSize_take_lt hk (hfinal.len_pos hocc hk hi') hlt
    omega

/-! ## Images that are linked to each other -/

variable {ι : Type} {images : ι → Image V} {link : ι → ℕ → Option (ι × ℕ)} {R : ι → ℕ → Behaviour}
  {outside : Env} {top : ℕ}

/-- Images of `i64` modules that do not overlap.  The imports that are linked to a function
of another are the first of their names, and the last call of `link_import` that names them
was with the address of the function, which is of the declared type.  The slots of the
others lead outside. -/
structure LinkedImages (E : Encoder) (images : ι → Image V) (link : ι → ℕ → Option (ι × ℕ))
    (R : ι → ℕ → Behaviour) (outside : Env) (top : ℕ) : Prop where
  loaded : ∀ m, (images m).Loaded E
  compiled : ∀ m, Compiled V E (images m).payloads (images m).compiling
  disjoint : ∀ m m' a, (images m).Covers a → (images m').Covers a → m = m'
  linked : ∀ m f m' g, link m f = some (m', g) → ∃ i off,
    (importedFunctions (images m).payloads)[f]? = some i ∧
    IsFirst (importedFunctions (images m).payloads) f ∧
    declaredType (images m').payloads g = declaredType (images m).payloads f ∧
    (images m').linked.module.functionEntryPoint g = some off ∧
    lastLinked (images m).calls i = some (BitVec.ofNat 64 ((images m').base + off))
  outside : ∀ m f ty, declaredType (images m).payloads f = some ty →
    f < (importedFunctions (images m).payloads).length → link m f = none →
      (∀ m', ¬ (images m').Covers (wordAt (images m).linked.assembled (8 * f))) ∧
        Provides outside top (wordAt (images m).linked.assembled (8 * f)) ty (R m f)

/-- A function of an image stands at an instruction of it. -/
theorem LinkedImages.exists_entry (h : LinkedImages E images link R outside top) {a : Word}
    {m : ι} {g j : ℕ}
    (hentry : Entry (fun m => (images m).compiling) (fun m => (images m).address len)
      (fun m => (images m).word) a m g j) :
    (images m).address len j = a ∧
      ∃ i, ((images m).program len).code[j]? = some i ∧ isData i = false := by
  obtain ⟨l, hl, hj, rfl⟩ := hentry
  obtain ⟨-, j', -, hj', -, hacc, -⟩ :=
    (h.compiled m).exists_faithful ((images m).address len) ((images m).address len)
      (images m).word hl
  cases hj.symm.trans hj'
  obtain ⟨i, hi, -, hdata⟩ := exists_of_accepts hacc
  exact ⟨rfl, i, hi, hdata⟩

/-- **Linked images are linked modules.** -/
theorem LinkedImages.modules (hE : E.Measured len) (hocc : E.Occupies len)
    (h : LinkedImages E images link R outside top) :
    LinkedModules V E (fun m => (images m).payloads) (fun m => (images m).compiling)
      (fun m => (images m).address len) (fun m => (images m).word) link R outside top where
  compiled m := h.compiled m
  separate m := (h.loaded m).separate hE hocc
  apart a m m' g g' j j' hg hg' := by
    obtain ⟨rfl, i, hi, hdata⟩ := h.exists_entry hg
    obtain ⟨heq, i', hi', hdata'⟩ := h.exists_entry hg'
    have hcovers := (h.loaded m').covers hE hocc hi' hdata'
    rw [heq] at hcovers
    obtain rfl := h.disjoint m m' _ ((h.loaded m).covers hE hocc hi hdata) hcovers
    exact ⟨rfl, (h.loaded m).separate hE hocc _ _ i i' hi hi' hdata hdata' heq.symm⟩
  linked m f ty l m' g hty hl hlink := by
    obtain ⟨i, off, hi, hfirst, htype, hoff, hlast⟩ := h.linked m f m' g hlink
    refine ⟨htype.trans hty, ?_⟩
    obtain ⟨its, hfinal⟩ := (h.loaded m').exists_assembled hE
    obtain ⟨l', j, hl', hj, rfl⟩ := (hfinal.entryPoint_iff hE (h.loaded m').ordered
      ((h.loaded m').functionBodies hE) ((images m').address len) (images m').word).mp hoff
    refine ⟨j, l', hl', hj, ?_⟩
    rw [(h.loaded m).word_eq hE hl, (h.loaded m).slot_eq hE hi hfirst hlast]
    rfl
  outside m f ty l hty hl hlink := by
    obtain ⟨its, hfinal⟩ := (h.loaded m).exists_assembled hE
    have hlt := hfinal.reading.lt_of_slot (h.loaded m).ordered hl
    rw [← length_importedFunctions] at hlt
    obtain ⟨hcovers, hprovides⟩ := h.outside m f ty hty hlt hlink
    rw [(h.loaded m).word_eq hE hl]
    refine ⟨fun m' g j hentry => ?_, hprovides⟩
    obtain ⟨haddress, i, hi, hdata⟩ := h.exists_entry hentry
    refine hcovers m' ?_
    rw [← haddress]
    exact (h.loaded m').covers hE hocc hi hdata

/-- `askingModule` without anything linked. -/
def askingBinary (b : Binding) (assembly : Assembly) : AssembledModule :=
  ⟨{ (Script.compiling askingModule).module with functionBodies := b.functionBodies },
    assembly.bytes⟩

/-- Its binary, linked to an address. -/
theorem askingModule_linked : ∃ b assembly asm,
    bindLabels Encoder.reference (Script.compiling askingModule) = .ok b ∧
    Encoder.reference.assemble b.instructions b.bound = .ok assembly ∧
    [⟨"env", some "f", 4112⟩].foldlM AssembledModule.link (askingBinary b assembly) = .ok asm ∧
    assembly.bytes.length ≤ 4096 ∧ (askingBinary b assembly).module.functionEntryPoint 1 = some 16 ∧
    asm.module.functionEntryPoint 1 = some 16 ∧ wordAt assembly.bytes 0 = importPlaceholder := by
  refine ⟨_, _, _, rfl, rfl, rfl, ?_, rfl, rfl, ?_⟩
  · decide +kernel
  · decide +kernel

end ParaOS.Parawasm

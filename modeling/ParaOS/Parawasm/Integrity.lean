import ParaOS.Parawasm.Frames
import ParaOS.X86.Evaluation

/-!
# Control flow of compiled modules

The program of a module is the instruction list that comes out of the optimiser,
with its labels where the optimiser put them and loaded anywhere.  What it calls
by label are functions of the module (`callLabel_mem_compileBody`), and the label
of a function stands before its optimised body (`target_split`).  So if bodies
keep to their frames, the program is `Disciplined`, and `control_flow_intact` is
`intact_of_reach`.

Not every body does.  A declared local of a function without params is stored
over the saved `rbp`, and `control_flow_broken` runs a module that does so.

### What is load-bearing

`KeepsFrames` is about all bodies of the module, since any of them may be called.
It speaks of operators, of slots and of types looked up, which are there before
anything is compiled, and not of the code.

`WellBehaved` is about imports and about whatever the kernel does in their place:
they come back with `rbp` and `rsp` as they have to be, and do not touch the stack
of their callers.  With an import that does, nothing could be said of any compiled
module.

`Separate` is about where the program is loaded.  Addresses of instructions that
wrap around would make a `ret` ambiguous.
-/

namespace ParaOS.Parawasm

open Machine X86 Wasm

/-! ## Programs

Two programs of one module, before and after the optimiser.  Words at labels are
those in import slots, which are filled in after `compile`, so they are parameters. -/

/-- An instruction list with label positions, loaded. -/
def programOf (code : List Instr) (labels : List (ℕ × Label)) (address : ℕ → Word)
    (word : Label → Word) : Program where
  code := code
  target l := (labels.find? fun x => x.2 == l).map Prod.fst
  address := address
  word := word

/-- The program of a module, as it was emitted. -/
def Compiling.emittedProgram {V : Validator} (st : Compiling V) (address : ℕ → Word)
    (word : Label → Word) : Program :=
  programOf st.instructions st.labelIndices address word

/-- The program of a module, as the optimiser leaves it. -/
def Compiling.program {V : Validator} (st : Compiling V) (address : ℕ → Word)
    (word : Label → Word) : Program :=
  let out := optimize st.instructions st.labelIndices
  programOf out.1 out.2 address word

variable {V : Validator} {E : Encoder} {st : Compiling V} {its : List Item} {ps : List Payload}
  {address : ℕ → Word} {word : Label → Word}

theorem Reading.emittedProgram_eq (h : Reading ps its st) :
    st.emittedProgram address word = programOf (codeOf its) (marksFrom 0 its) address word := by
  rw [Compiling.emittedProgram, h.emitted.instructions, h.emitted.labelIndices]

theorem Reading.program_eq (h : Reading ps its st) (hcomp : CompiledWith V ps its st.toContext) :
    st.program address word = programOf (codeOf (its.map Item.optimized))
      (marksFrom 0 (its.map Item.optimized)) address word := by
  rw [Compiling.program, h.emitted.instructions, h.emitted.labelIndices,
    optimize_items hcomp.closed]

/-- A label stands where its item is. -/
theorem target_split {functions : List (Label × ℕ)} {A B : List Item} {it : Item} {m : ℕ × Label}
    (h : Labelled functions (A ++ it :: B))
    (hcreated : ((A ++ it :: B).flatMap Item.created).Nodup) (hm : it.mark = some m) :
    (programOf (codeOf (A ++ it :: B)) (marksFrom 0 (A ++ it :: B)) address word).target m.2 =
      some ((codeOf A).length + m.1) := by
  have hA : ((marksFrom 0 A).find? fun x => x.2 == m.2) = none := by
    rw [List.find?_eq_none]
    intro x hx heq
    obtain ⟨A₁, it', A₂, m', rfl, hm', rfl⟩ := mem_marksFrom hx
    exact h.mark_ne hcreated hm (by simp) hm' (by simpa using heq)
  simp only [programOf]
  rw [marksFrom_append, List.find?_append, hA, Option.none_or, marksFrom, hm]
  simp

/-- What stands at the label of a body. -/
theorem drop_codeOf_body {A B : List Item} {f : ℕ} {g : Label} {code : List Instr} :
    (codeOf (A ++ .body f g code :: B)).drop (codeOf A).length = code ++ codeOf B := by
  rw [codeOf_append, List.drop_left]
  rfl

/-- The label of a body stands before its code. -/
theorem target_body (address : ℕ → Word) (word : Label → Word) {functions : List (Label × ℕ)}
    (h : Labelled functions its)
    (hcreated : (its.flatMap Item.created).Nodup) {f : ℕ} {g : Label} {code : List Instr}
    (hit : .body f g code ∈ its) :
    ∃ j rest, (programOf (codeOf its) (marksFrom 0 its) address word).target g = some j ∧
      (codeOf its).drop j = code ++ rest := by
  obtain ⟨A, B, rfl⟩ := List.append_of_mem hit
  exact ⟨(codeOf A).length + 0, codeOf B, target_split h hcreated (m := (0, g)) rfl,
    drop_codeOf_body⟩

/-! ## Calls -/

/-- The optimiser makes no calls. -/
theorem callLabel_mem_optimized {is : List Instr} {l : Label} (h : .callLabel l ∈ optimized is) :
    .callLabel l ∈ is := by
  refine optimized_induction (p := fun js => .callLabel l ∈ js → .callLabel l ∈ is)
    (fun js hjs h => ?_) id h
  rcases (rewrites_pass js).mem h with h | ⟨a, b, h⟩
  · exact hjs h
  · cases h

theorem callLabel_mem_handleInstructions {ctx : Context} {locals : List ℕ} {ops : List Operator}
    {code : List Instr} {l : Label} (h : handleInstructions ctx locals ops = .ok code)
    (hl : .callLabel l ∈ code) : ∃ f : ℕ, .call f ∈ ops ∧ ctx.got[f]? = some l := by
  induction ops generalizing code with
  | nil =>
      cases h
      cases hl
  | cons op ops ih =>
      obtain ⟨c, r, hc, hr, rfl⟩ := handleInstructions_cons.mp h
      rcases List.mem_append.mp hl with hl | hl
      · cases op with
        | call f => exact ⟨f, List.mem_cons_self, callLabel_mem hc hl⟩
        | localGet i =>
            rw [handleInstruction] at hc
            split at hc
            · cases hc
              simp at hl
            · cases hc
        | localSet i =>
            rw [handleInstruction] at hc
            split at hc
            · cases hc
              simp at hl
            · cases hc
        | unimplemented b => cases hc
        | _ =>
            cases hc
            simp at hl
      · obtain ⟨f, hf, hg⟩ := ih hr hl
        exact ⟨f, List.mem_cons_of_mem _ hf, hg⟩

/-- What the code of a body calls are functions that the body calls. -/
theorem callLabel_mem_compileBody {ctx : Context} {ty : FuncType} {φ : V.FuncSt}
    {body : FunctionBody} {out : List Instr × ℕ} {l : Label} (hp : AllI64 ty.params)
    (h : compileBody V ctx ty φ body = .ok out) (hl : .callLabel l ∈ out.1) :
    ∃ f : ℕ, .call f ∈ body.operators.items ∧ ctx.got[f]? = some l := by
  obtain ⟨order, t, before, code, after, horder, -, hbefore, hcode, hafter, hout⟩ :=
    compileBody_eq_ok h
  obtain ⟨-, rfl⟩ := prologue_i64 hp horder hbefore
  simp only [epilogue, Outcome.bind_eq_ok, Outcome.pure_eq_ok, Outcome.ok.injEq] at hafter
  obtain ⟨results, hresults, free, hfree, rfl⟩ := hafter
  obtain ⟨-, rfl⟩ := moveStack_eq_ok hfree
  rw [hout, moveResults_eq_ok hresults, List.mem_append, List.mem_append] at hl
  rcases hl with (hl | hl) | hl
  · simp only [List.mem_append] at hl
    rcases hl with (hl | hl) | hl
    · simp at hl
    · split_ifs at hl <;> simp at hl
    · obtain ⟨k, hk, hget⟩ := List.mem_iff_getElem.mp hl
      rw [List.getElem_zipWith] at hget
      cases hget
  · exact callLabel_mem_handleInstructions hcode hl
  · simp only [List.mem_append, List.mem_map] at hl
    rcases hl with (⟨r, -, hr⟩ | hl) | hl
    · cases hr
    · split_ifs at hl <;> simp at hl
    · simp at hl

/-! ## The program of a module -/

/-- Every body keeps to its frame, with the type the compiler looks up for its
function. -/
def KeepsFrames (ps : List Payload) (ctx : Context) : Prop :=
  ∀ (k : ℕ) (body : FunctionBody) (ty : FuncType), (bodies ps)[k]? = some body →
    ctx.functionType ((functionImports ps).length + k) = some ty → KeepsFrame ctx ty body

/-- Conditions on bodies and the types looked up for them can be checked. -/
theorem forall_bodies_iff {ctx : Context} {p : FuncType → FunctionBody → Prop} :
    (∀ (k : ℕ) (body : FunctionBody) (ty : FuncType), (bodies ps)[k]? = some body →
        ctx.functionType ((functionImports ps).length + k) = some ty → p ty body) ↔
      ∀ k < (bodies ps).length, ∀ body ∈ (bodies ps)[k]?,
        ∀ ty ∈ ctx.functionType ((functionImports ps).length + k), p ty body := by
  constructor
  · exact fun h k _ body hbody ty hty => h k body ty hbody hty
  · intro h k body ty hbody hty
    obtain ⟨hk, -⟩ := List.getElem?_eq_some_iff.mp hbody
    exact h k hk body hbody ty hty

instance (ps : List Payload) (ctx : Context) : Decidable (KeepsFrames ps ctx) :=
  decidable_of_iff' _ forall_bodies_iff

/-- No label is made twice. -/
theorem nodup_created (h : Reading ps its st) :
    ((its.map Item.optimized).flatMap Item.created).Nodup := by
  simp only [List.flatMap_map, Item.created_optimized]
  exact h.emitted.created.imp fun hlt => Nat.ne_of_lt hlt

/-- Only bodies have the label a function is called by. -/
theorem Emitted.eq_body_of_mark (h : Emitted its st) {f : ℕ} {g : Label}
    (hg : st.got[f]? = some g) {it : Item} (hit : it ∈ its) {k : ℕ} (hm : it.mark = some (k, g)) :
    ∃ f' code, it = .body f' g code := by
  obtain ⟨t, l, hres⟩ := h.reserve_of_got hg
  cases it with
  | skip => cases hm
  | slot i t' l' =>
      cases hm
      cases h.eq_of_created hit hres (l := g) (by simp [Item.created]) (by simp [Item.created])
  | reserve t' l' g' =>
      cases hm
      cases h.eq_of_created hit hres (l := g) (by simp [Item.created]) (by simp [Item.created])
      have hnodup : (its.flatMap Item.created).Nodup :=
        h.created.imp fun hlt => Nat.ne_of_lt hlt
      have := (List.nodup_flatMap.mp hnodup).1 _ hres
      simp [Item.created] at this
  | body f' g' code =>
      cases hm
      exact ⟨f', code, rfl⟩

/-- The label of a function stands before its optimised body. -/
theorem Reading.exists_compiled (h : Reading ps its st)
    (hcomp : CompiledWith V ps its st.toContext) {f j : ℕ} {g : Label} (hg : st.got[f]? = some g)
    (hj : (st.program address word).target g = some j) :
    ∃ k body ty φ out rest, f = (functionImports ps).length + k ∧ (bodies ps)[k]? = some body ∧
      st.functionType f = some ty ∧ compileBody V st.toContext ty φ body = .ok out ∧
      (st.program address word).code.drop j = optimized out.1 ++ rest := by
  rw [h.program_eq hcomp] at hj ⊢
  simp only [programOf, Option.map_eq_some_iff] at hj ⊢
  obtain ⟨x, hx, rfl⟩ := hj
  have hlabel : x.2 = g := by simpa using List.find?_some hx
  obtain ⟨A, it', B, m, hits, hm, rfl⟩ := mem_marksFrom (List.mem_of_find?_eq_some hx)
  obtain ⟨it, hit, rfl⟩ : ∃ it ∈ its, it.optimized = it' :=
    List.mem_map.mp (hits ▸ List.mem_append_right _ List.mem_cons_self)
  rw [Item.mark_optimized] at hm
  obtain ⟨n, l⟩ := m
  obtain rfl : l = g := hlabel
  obtain ⟨f', code, rfl⟩ := h.emitted.eq_body_of_mark hg hit hm
  cases hm
  obtain ⟨k, hk⟩ := mem_body? hit
  obtain ⟨hf', hg', body, ty, φ, height, hbody, hty, hcode⟩ := hcomp k f' l code hk
  obtain rfl := h.emitted.got_inj hg hg'
  refine ⟨k, body, ty, φ, _, codeOf B, hf', hbody, hty, hcode, ?_⟩
  rw [hits, Nat.zero_add, Nat.add_zero, Item.optimized, drop_codeOf_body]

/-- **Called labels stand before code that keeps to its frame.** -/
theorem Reading.accepts_target (h : Reading ps its st)
    (hcomp : CompiledWith V ps its st.toContext) (hkeep : KeepsFrames ps st.toContext) {f k : ℕ}
    {g : Label} (hg : st.got[f]? = some g) (hk : (st.program address word).target g = some k) :
    accepts .entry ((st.program address word).code.drop k) = true := by
  obtain ⟨i, body, ty, φ, out, rest, rfl, hbody, hty, hcode, hdrop⟩ := h.exists_compiled hcomp hg hk
  rw [hdrop]
  exact accepts_append (accepts_optimized (compileBody_accepts hcode (hkeep i body ty hbody hty)))

/-- So the program is disciplined: whatever it calls keeps to its frame. -/
theorem Reading.disciplined (h : Reading ps its st)
    (hcomp : CompiledWith V ps its st.toContext) (hkeep : KeepsFrames ps st.toContext) :
    (st.program address word).Disciplined := by
  intro pc k l hl hk
  have hmem := List.mem_of_getElem? hl
  rw [h.program_eq hcomp] at hmem
  simp only [programOf, codeOf] at hmem
  obtain ⟨it', hit', hmem⟩ := List.mem_flatMap.mp hmem
  obtain ⟨it, hit, rfl⟩ := List.mem_map.mp hit'
  obtain ⟨f, hf⟩ : ∃ f : ℕ, st.got[f]? = some l := by
    cases it with
    | body f g code =>
        obtain ⟨i, hi⟩ := mem_body? hit
        obtain ⟨rfl, -, body, ty, φ, height, hbody, hty, hcode⟩ := hcomp i f g code hi
        obtain ⟨f, -, hf⟩ := callLabel_mem_compileBody (hkeep i body ty hbody hty).1 hcode
          (callLabel_mem_optimized hmem)
        exact ⟨f, hf⟩
    | _ => simp [Item.optimized, Item.code] at hmem
  exact h.accepts_target hcomp hkeep hf hk

/-- Where the code of a body stands, as emitted and as optimised. -/
theorem Reading.exists_targets (h : Reading ps its st)
    (hcomp : CompiledWith V ps its st.toContext) (address address' : ℕ → Word)
    (word : Label → Word) {f : ℕ} {g : Label} {code : List Instr} (hit : .body f g code ∈ its) :
    ∃ i j rest rest', (st.emittedProgram address word).target g = some i ∧
      (st.program address' word).target g = some j ∧
      (st.emittedProgram address word).code.drop i = code ++ rest ∧
      (st.program address' word).code.drop j = optimized code ++ rest' := by
  obtain ⟨i, rest, hi, hdrop⟩ := target_body address word (labelled_items h hcomp)
    (h.emitted.created.imp fun hlt => Nat.ne_of_lt hlt) hit
  obtain ⟨j, rest', hj, hdrop'⟩ := target_body address' word (labelled_optimized h hcomp)
    (nodup_created h) (List.mem_map_of_mem (f := Item.optimized) hit)
  rw [h.emittedProgram_eq, h.program_eq hcomp]
  exact ⟨i, j, rest, rest', hi, hj, hdrop, hdrop'⟩

/-- The label of a defined function, and where it stands. -/
theorem Reading.exists_target (h : Reading ps its st)
    (hcomp : CompiledWith V ps its st.toContext) (address : ℕ → Word) (word : Label → Word)
    {k : ℕ} (hk : k < (bodies ps).length) :
    ∃ g j, st.got[(functionImports ps).length + k]? = some g ∧
      (st.program address word).target g = some j := by
  obtain ⟨⟨f, g, code⟩, hget⟩ : ∃ x, (its.filterMap Item.body?)[k]? = some x :=
    ⟨_, List.getElem?_eq_getElem (h.length_bodies ▸ hk)⟩
  obtain ⟨rfl, hg, -⟩ := hcomp k f g code hget
  obtain ⟨j, -, hj, -⟩ := target_body address word (labelled_optimized h hcomp)
    (nodup_created h)
    (List.mem_map_of_mem (f := Item.optimized) (mem_of_body? hget))
  exact ⟨g, j, hg, by rw [h.program_eq hcomp, hj]⟩

/-! ## Control flow

The theorem for all runs, and two modules: one whose runs are as they should be and
one whose are not. -/

/-- The operators on `i64`, and calls. -/
def integral : Operator → Bool
  | .i32Add => false
  | .i32Sub => false
  | .unimplemented _ => false
  | _ => true

/-- A module with nothing but `i64` in it. -/
structure Integral (ps : List Payload) : Prop where
  types : ∀ t ∈ functionImports ps ++ definedFunctions ps, ∀ ty ∈ typeAt ps t,
    AllI64 ty.params ∧ AllI64 ty.returns
  locals : ∀ body ∈ bodies ps, AllI64 (body.locals.items.map Prod.snd)
  operators : ∀ body ∈ bodies ps, ∀ op ∈ body.operators.items, integral op = true

/-- The declared type of a body, and how it types the body. -/
theorem Integral.exists_typed {ps : List Payload} (hint : Integral ps) (h : Valid ps) {k : ℕ}
    {body : FunctionBody} (hbody : (bodies ps)[k]? = some body) :
    ∃ t ty, (definedFunctions ps)[k]? = some t ∧ typeAt ps t = some ty ∧ AllI64 ty.params ∧
      WellTyped ⟨declaredType ps, ty.params ++ declaredLocals body.locals.items⟩ ty.returns
        body.operators.items := by
  obtain ⟨t, ty, ht, hty⟩ := h.exists_typeAt hbody
  have hparams := (hint.types t (List.mem_append_right _ (List.mem_of_getElem? ht)) ty hty).1
  refine ⟨t, ty, ht, hty, hparams, h.typed k body t ty hbody ht hty fun op hop => ?_⟩
  have := hint.operators body (List.mem_of_getElem? hbody) op hop
  cases op with
  | unimplemented n => cases this
  | _ => rfl

/-- **Control flow is intact** in modules whose bodies keep to their frames:
whatever defined function is called, in whatever state, every `ret` that comes up
goes back behind its call, with `rbp` as on entry and `rsp` eight above.  Runs may
be of any length, unfinished, and inside any number of calls.

Outside code is asked to be well-behaved: it returns behind the call, with `rsp` and
`rbp` as the convention has them and with what is above them in memory untouched.
It may do all else, also not return.  Different instructions have different
addresses (`Separate`), or a return address would not say which instruction it is
of. -/
theorem control_flow_intact {V : Validator} {E : Encoder} {P : Parser} {n : ℕ}
    {module : List UInt8} {asm : AssembledModule} (hV : V.Sound) (hP : P.Documented)
    (h : compileWithin E P V n module = some (.ok asm)) :
    ∃ st : Compiling V, compilePayloads E (scan P module).1 = .ok st ∧
      (KeepsFrames (scan P module).1 st.toContext →
        ∀ (address : ℕ → Word) (word : Label → Word) (env : Env) (top : ℕ),
          (st.program address word).Separate → WellBehaved env top →
          ∀ k < (bodies (scan P module).1).length, ∃ g j,
            st.got[(functionImports (scan P module).1).length + k]? = some g ∧
            (st.program address word).target g = some j ∧
            ∀ (s : X86.State) (c : Cfg), s.sp + 8 ≤ top →
              Reach (st.program address word) env (.call j s) c →
              Intact (st.program address word) c) := by
  obtain ⟨st, hst, -⟩ := compileWithin_eq_ok hP h
  refine ⟨st, hst, fun hkeep address word env top hsep henv k hk => ?_⟩
  have hord := hV.ordered _ (accepts_of_compilePayloads hst)
  obtain ⟨its, hread, hcomp⟩ := reading_compiledWith hord (foldlM_of_compilePayloads hst)
  obtain ⟨g, j, hg, hj⟩ := hread.exists_target hcomp address word hk
  refine ⟨g, j, hg, hj, fun s c htop hreach => ?_⟩
  exact intact_of_reach (hread.disciplined hcomp hkeep) hsep henv
    (hread.accepts_target hcomp hkeep hg hj) htop hreach

/-- Outside code that returns at once. -/
def returning : Env := fun _ s s' => s' = s.set .rsp (s.regs .rsp + 8)

/-- It leaves everything but `rsp` alone. -/
theorem wellBehaved_returning (top : ℕ) : WellBehaved returning top := by
  refine ⟨?_, ?_, ?_⟩
  · rintro a s _ rfl
    exact State.set_regs_self _ _ _
  · rintro a s _ rfl
    exact State.set_regs_of_ne _ _ (by decide)
  · rintro a s _ x rfl - -
    rfl

/-- Addresses count instructions. -/
theorem separate_ofNat {code : List Instr} {labels : List (ℕ × Label)} (h : code.length ≤ 2 ^ 64) :
    (programOf code labels (BitVec.ofNat 64) word).Separate := by
  intro j k i i' hj hk _ _ heq
  obtain ⟨hj, -⟩ := List.getElem?_eq_some_iff.mp hj
  obtain ⟨hk, -⟩ := List.getElem?_eq_some_iff.mp hk
  have := congrArg BitVec.toNat heq
  simp only [programOf, BitVec.toNat_ofNat] at hj hk this
  rwa [Nat.mod_eq_of_lt (by omega), Nat.mod_eq_of_lt (by omega)] at this

/-- The payloads of a script. -/
abbrev Script.payloads (script : Script) : List Payload :=
  (scan (parserOf script) (Script.bytes script)).1

/-- What reading the module of a script comes to. -/
def Script.compiling (script : Script) : Compiling Validator.reference :=
  match compilePayloads Encoder.reference (Script.payloads script) with
  | .ok st => st
  | _ => Compiling.init

/-- The program of `callingModule`: function `1` is at index `4` and function `2`
at index `10`. -/
def callingProgram : Program :=
  programOf [.zeroBytes, .dq importPlaceholder, .dq 0, .dq 0, .push .rbp, .mov .rbp .rsp,
    .callLabel 6, .mov .rsp .rbp, .pop .rbp, .ret, .ret] [(1, 2), (2, 3), (3, 5), (4, 4), (10, 6)]
    (BitVec.ofNat 64) fun _ => 0

/-- This is what `compile` makes of it. -/
theorem callingModule_program :
    (Script.compiling callingModule).program (BitVec.ofNat 64) (fun _ => 0) = callingProgram := by
  have h : optimize (Script.compiling callingModule).instructions
      (Script.compiling callingModule).labelIndices = ([.zeroBytes, .dq importPlaceholder, .dq 0,
        .dq 0, .push .rbp, .mov .rbp .rsp, .callLabel 6, .mov .rsp .rbp, .pop .rbp, .ret, .ret],
        [(1, 2), (2, 3), (3, 5), (4, 4), (10, 6)]) := by
    decide +kernel
  rw [Compiling.program, h]
  rfl

/-- In a run of function `1` of `callingModule` the `ret` of function `2` comes
up, which is the second activation's. -/
theorem control_flow_intact_instance :
    ∃ c : Cfg, Reach callingProgram returning (.call 4 (State.ofStack 64 100 [0])) c ∧
      callingProgram.code[c.pc]? = some .ret ∧ c.frames.length = 2 ∧ Intact callingProgram c := by
  obtain ⟨asm, h⟩ : ∃ asm, compileWithin Encoder.reference (parserOf callingModule)
      Validator.reference 20 (Script.bytes callingModule) = some (.ok asm) := ⟨_, rfl⟩
  obtain ⟨st, hst, hintact⟩ := control_flow_intact Validator.reference_sound
    (parserOf_documented callingModule) h
  have hcomp : compilePayloads Encoder.reference (Script.payloads callingModule) =
      .ok (Script.compiling callingModule) := rfl
  obtain rfl : st = Script.compiling callingModule := Outcome.ok.inj (hst.symm.trans hcomp)
  have hkeeps : KeepsFrames (Script.payloads callingModule)
      (Script.compiling callingModule).toContext := by
    decide +kernel
  obtain ⟨g, j, hg, hj, hintact⟩ := hintact hkeeps (BitVec.ofNat 64) (fun _ => 0) returning
    (2 ^ 32) (callingModule_program ▸ separate_ofNat (by decide)) (wellBehaved_returning _) 0
    (by decide)
  have hg' : (Script.compiling callingModule).got[1]? = some 4 := by decide +kernel
  obtain rfl : g = 4 := Option.some.inj (hg.symm.trans hg')
  rw [callingModule_program] at hj hintact
  cases hj
  have hreach : ∃ c, Reach callingProgram returning (.call 4 (State.ofStack 64 100 [0])) c ∧
      c.pc = 10 ∧ c.frames.length = 2 := by
    refine ⟨_, ((Relation.ReflTransGen.single (.prim rfl rfl)).tail (.prim rfl rfl)).tail
      (.call rfl rfl rfl), rfl, rfl⟩
  obtain ⟨c, hc, hpc, hframes⟩ := hreach
  exact ⟨c, hc, by rw [hpc]; rfl, hframes, hintact _ c (by decide) hc⟩

/-- A function of type `0` with a declared local, which it sets to `7`. -/
def settingModule : Script :=
  [(preamble, .version 1),
    ([0x01, 0x04, 0x01, 0x60, 0x00, 0x00], .typeSection ⟨[.func ⟨[], []⟩], none⟩),
    ([0x03, 0x02, 0x01, 0x00], .functionSection ⟨[0], none⟩),
    ([0x0a, 0x0a, 0x01], .codeSectionStart 1),
    ([0x08, 0x01, 0x01, 0x7e, 0x42, 0x07, 0x21, 0x00, 0x0b],
      .codeSectionEntry ⟨⟨[(1, .i64)], none⟩, ⟨[.i64Const 7, .localSet 0, .end], none⟩⟩)]

/-- Its program: the local is stored over the saved `rbp`. -/
def settingProgram : Program :=
  programOf [.dq 0, .push .rbp, .mov .rbp .rsp, .subRsp 8, .movImm .rax 7, .store 0 .rax,
    .addRsp 8, .mov .rsp .rbp, .pop .rbp, .ret] [(0, 1), (1, 2)] (BitVec.ofNat 64) fun _ => 0

/-- This is what `compile` makes of it. -/
theorem settingModule_program :
    (Script.compiling settingModule).program (BitVec.ofNat 64) (fun _ => 0) = settingProgram := by
  have h : optimize (Script.compiling settingModule).instructions
      (Script.compiling settingModule).labelIndices = (settingProgram.code, [(0, 1), (1, 2)]) := by
    decide +kernel
  rw [Compiling.program, h]
  rfl

/-- A caller of `settingModule` gets `7` in `rbp`.  The module is valid, and nothing
in it is out of the ordinary. -/
theorem control_flow_broken : ¬ ∀ (script : Script) (n : ℕ) (asm : AssembledModule)
    (st : Compiling Validator.reference),
    compileWithin Encoder.reference (parserOf script) Validator.reference n
      (Script.bytes script) = some (.ok asm) →
    compilePayloads Encoder.reference (Script.payloads script) = .ok st →
    Integral (Script.payloads script) →
    ∀ (address : ℕ → Word) (word : Label → Word) (env : Env) (top : ℕ),
      (st.program address word).Separate → WellBehaved env top →
      ∀ (f g j : ℕ) (s : X86.State) (c : Cfg), st.got[f]? = some g →
        (st.program address word).target g = some j → s.sp + 8 ≤ top →
        Reach (st.program address word) env (.call j s) c →
        Intact (st.program address word) c := by
  intro h
  obtain ⟨asm, hasm⟩ : ∃ asm, compileWithin Encoder.reference (parserOf settingModule)
      Validator.reference 20 (Script.bytes settingModule) = some (.ok asm) := ⟨_, rfl⟩
  have hst : compilePayloads Encoder.reference (Script.payloads settingModule) =
      .ok (Script.compiling settingModule) := rfl
  have hint : Integral (Script.payloads settingModule) :=
    ⟨of_decide_eq_true rfl, of_decide_eq_true rfl, of_decide_eq_true rfl⟩
  have hg : (Script.compiling settingModule).got[0]? = some 2 := by decide +kernel
  have hbroken := h settingModule 20 asm _ hasm hst hint (BitVec.ofNat 64) (fun _ => 0) returning
    (2 ^ 32) (settingModule_program ▸ separate_ofNat (by decide)) (wellBehaved_returning _) 0 2 1
    (State.ofStack 64 100 [0])
  rw [settingModule_program] at hbroken
  -- up to its `ret` the function runs straight ahead
  obtain ⟨s', hs', w, s'', hpop, hrbp⟩ : ∃ s', execList ((settingProgram.code.drop 1).take 8)
      (State.ofStack 64 100 [0]) = some s' ∧ ∃ w s'', s'.pop = some (w, s'') ∧ s''.regs .rbp = 7 :=
    ⟨_, rfl, _, _, rfl, by decide +kernel⟩
  obtain ⟨f, fs, hf, -, hf', -⟩ := hbroken ⟨9, s', _⟩ hg rfl (by decide)
    (reach_of_run (List.take_prefix _ _) (Program.run_of_execList hs')) rfl w s'' hpop
  cases hf
  rw [hrbp] at hf'
  exact absurd hf' (by decide)

end ParaOS.Parawasm

import Mathlib.Data.List.Nodup
import Mathlib.Data.List.Pairwise
import ParaOS.Parawasm.Crates

/-!
# Entry points

For a module `compile` accepts, the items of the loop meet what binding relies on
(`labelled_optimized`): labels are made in increasing order and never twice, and the
label of a body is the one made for its function.  So the layout of the binary can
be read off the items: eight bytes for each function import, eight for each defined
function, then the optimised bodies one after the other (`Assembled`).

`entry_points_exact` puts this together: the entry points recorded while labels are
still being bound are those of the final binary, and calls go there.

### What is load-bearing

Entry points are read off in the middle of binding, from an assembly of what is
bound so far, and are never looked at again.  They are those of the final binary for
two reasons: what is bound later comes behind, and an instruction has the same
length in both assemblies (`Encoder.Measured`).

`CompiledWith` has each body under the label that `got` has for its function, and
labels are made in increasing order.  So the label of a body is the label of no
slot, and `find?` by label finds one function at most.

Aliased functions are not counted, and a body belongs to the function with the next
number that is counted.  In a valid module that is the defined function the body is
for, by its position and not by its index.
-/

namespace ParaOS.Parawasm

open Machine X86 Wasm

variable {V : Validator} {E : Encoder} {len : Instr → ℕ} {st : Compiling V} {its : List Item}
  {ps : List Payload}

/-! ## Labels are made once

A label is created with an item, and the labels created for all items form an
increasing list.  Everything about which label belongs to what follows from that. -/

/-- An item is known by any label made for it. -/
theorem Emitted.eq_of_created (h : Emitted its st) {it it' : Item} (hit : it ∈ its)
    (hit' : it' ∈ its) {l : Label} (hl : l ∈ it.created) (hl' : l ∈ it'.created) : it = it' := by
  by_contra hne
  have hnodup : (its.flatMap Item.created).Nodup := h.created.imp (fun hlt => Nat.ne_of_lt hlt)
  have hdisj := (List.nodup_flatMap.mp hnodup).2
  have hsymm : Std.Symm (Function.onFun List.Disjoint Item.created) :=
    ⟨fun _ _ hab _ ha hb => hab hb ha⟩
  exact hdisj.forall hit hit' hne hl hl'

/-- The label of a body is made for the reserved word of its function. -/
theorem Emitted.reserve_of_got (h : Emitted its st) {f : ℕ} {g : Label} (hg : st.got[f]? = some g) :
    ∃ t l, Item.reserve t l g ∈ its := by
  rw [h.got, Option.bind_eq_some_iff] at hg
  obtain ⟨x, hx, hxg⟩ := hg
  obtain ⟨it, hit, htarget⟩ := List.mem_filterMap.mp (List.mem_of_getElem? hx)
  cases it with
  | reserve t l g' =>
      cases htarget
      cases hxg
      exact ⟨t, l, hit⟩
  | slot i t l =>
      cases htarget
      cases hxg
  | skip => cases htarget
  | body f g code => cases htarget

/-- The labels by which functions are called, in order of the functions. -/
theorem targets_sublist (its : List Item) :
    ((targets its).map (Sum.elim id id)).Sublist (its.flatMap Item.created) := by
  induction its with
  | nil => exact List.Sublist.refl _
  | cons it its ih =>
      rw [targets, List.filterMap_cons, List.flatMap_cons]
      cases it with
      | skip => exact ih
      | slot i t l => exact ih.cons_cons l
      | reserve t l g => exact (ih.cons_cons g).cons l
      | body f g code => exact ih

/-- Different functions have different labels. -/
theorem Emitted.target_inj (h : Emitted its st) {f f' : ℕ} {x : Label ⊕ Label}
    (hf : (targets its)[f]? = some x) (hf' : (targets its)[f']? = some x) : f = f' := by
  have hnodup : (its.flatMap Item.created).Nodup := h.created.imp (fun hlt => Nat.ne_of_lt hlt)
  have htargets : (targets its).Nodup := ((targets_sublist its).nodup hnodup).of_map _
  obtain ⟨hlt, hx⟩ := List.getElem?_eq_some_iff.mp hf
  obtain ⟨hlt', hx'⟩ := List.getElem?_eq_some_iff.mp hf'
  exact (List.Nodup.getElem_inj_iff htargets).mp (hx.trans hx'.symm)

/-- Different defined functions have different labels. -/
theorem Emitted.got_inj (h : Emitted its st) {f f' : ℕ} {g : Label} (hf : st.got[f]? = some g)
    (hf' : st.got[f']? = some g) : f = f' := by
  rw [h.got, Option.bind_eq_some_iff] at hf hf'
  obtain ⟨x, hx, hxg⟩ := hf
  obtain ⟨x', hx', hxg'⟩ := hf'
  have heq : x = x' := by
    cases x with
    | inl l => cases hxg
    | inr l =>
        cases x' with
        | inl l' => cases hxg'
        | inr l' =>
            cases hxg
            cases hxg'
            rfl
  subst heq
  exact h.target_inj hx hx'

/-! ## The items of an accepted module

Facts about `body?`, `bodyOf` and labels that the next section puts together. -/

/-- The body of a function ends with `ret`. -/
theorem compileBody_getLast? {ctx : Context} {ty : FuncType} {φ : V.FuncSt} {body : FunctionBody}
    {out : List Instr × ℕ} (h : compileBody V ctx ty φ body = .ok out) :
    out.1.getLast? = some .ret := by
  obtain ⟨order, t, before, code, after, -, -, -, -, hafter, hout⟩ := compileBody_eq_ok h
  simp only [epilogue, Outcome.bind_eq_ok, Outcome.pure_eq_ok, Outcome.ok.injEq] at hafter
  obtain ⟨results, -, free, -, rfl⟩ := hafter
  rw [hout]
  simp

/-- Labels and numbers of bodies, read off the bodies. -/
theorem bodyOf_eq (its : List Item) :
    its.filterMap Item.bodyOf = (its.filterMap Item.body?).map fun b => (b.2.1, b.1) := by
  rw [List.map_filterMap]
  congr 1
  funext it
  cases it <;> rfl

/-- A body among the items has a number among the bodies, -/
theorem mem_body? {f : ℕ} {g : Label} {code : List Instr} (h : Item.body f g code ∈ its) :
    ∃ k : ℕ, (its.filterMap Item.body?)[k]? = some (f, g, code) :=
  List.mem_iff_getElem?.mp (List.mem_filterMap.mpr ⟨_, h, rfl⟩)

/-- and the other way round. -/
theorem mem_of_body? {k f : ℕ} {g : Label} {code : List Instr}
    (h : (its.filterMap Item.body?)[k]? = some (f, g, code)) : .body f g code ∈ its := by
  obtain ⟨it, hit, hbody⟩ := List.mem_filterMap.mp (List.mem_of_getElem? h)
  cases it with
  | body f' g' code' =>
      cases hbody
      exact hit
  | _ => cases hbody

/-- Items end in an instruction no rule mentions. -/
theorem CompiledWith.closed (h : CompiledWith V ps its st.toContext) : ∀ it ∈ its, it.Closed := by
  intro it hit
  cases it with
  | skip => exact ⟨_, rfl, rfl⟩
  | slot i t l => exact ⟨_, rfl, rfl⟩
  | reserve t l g => exact ⟨_, rfl, rfl⟩
  | body f g code =>
      obtain ⟨k, hk⟩ := mem_body? hit
      obtain ⟨-, -, body, ty, φ, height, -, -, hcode⟩ := h k f g code hk
      exact ⟨.ret, compileBody_getLast? hcode, rfl⟩

/-- The functions with a body, one after the other. -/
theorem CompiledWith.functions (h : CompiledWith V ps its st.toContext) :
    (its.filterMap Item.bodyOf).map Prod.snd =
      (List.range (its.filterMap Item.body?).length).map ((functionImports ps).length + ·) := by
  rw [bodyOf_eq, List.map_map]
  refine List.ext_getElem (by simp) fun k hk _ => ?_
  simp only [List.length_map] at hk
  have hk' := List.getElem?_eq_getElem hk
  have := (h k _ _ _ hk').1
  simp only [List.getElem_map, Function.comp_apply, List.getElem_range]
  exact this

@[simp] theorem Item.bodyOf_optimized (it : Item) : it.optimized.bodyOf = it.bodyOf := by
  cases it <;> rfl

/-- A first component that no other element has is found. -/
theorem find?_eq_some_of_unique {l : List (Label × ℕ)} {p : Label × ℕ} (hp : p ∈ l)
    (hunique : ∀ q ∈ l, q.1 = p.1 → q = p) : (l.find? fun q => q.1 == p.1) = some p := by
  cases hf : l.find? fun q => q.1 == p.1 with
  | none => exact absurd (List.find?_eq_none.mp hf p hp) (by simp)
  | some q =>
      have hq := List.find?_some hf
      rw [hunique q (List.mem_of_find?_eq_some hf) (by simpa using hq)]

/-- A body is compiled under the label its function is called by. -/
theorem CompiledWith.got (h : CompiledWith V ps its st.toContext) {f : ℕ} {g : Label}
    (hf : (g, f) ∈ its.filterMap Item.bodyOf) : st.got[f]? = some g := by
  obtain ⟨it, hit, hbody⟩ := List.mem_filterMap.mp hf
  cases it with
  | body f g code =>
      cases hbody
      obtain ⟨k, hk⟩ := mem_body? hit
      exact (h k f g code hk).2.1
  | _ => cases hbody

/-- Looking for a function by the label of an item finds the one it is the body
of.  The label of a slot or of a reserved word is not that of a body, since the
latter is made for a reserved word as its second label. -/
theorem Emitted.find?_bodyOf (h : Emitted its st) (hcomp : CompiledWith V ps its st.toContext)
    {it : Item} (hit : it ∈ its) {m : ℕ × Label} (hm : it.mark = some m) :
    ((its.filterMap Item.bodyOf).find? fun f => f.1 == m.2) = it.bodyOf := by
  have hother : ∀ f g t l, (g, f) ∈ its.filterMap Item.bodyOf → g ∈ it.created →
      it = .reserve t l g → l ≠ g := by
    rintro f g t l - - rfl rfl
    have hnodup : (its.flatMap Item.created).Nodup := h.created.imp (fun hlt => Nat.ne_of_lt hlt)
    have := (List.nodup_flatMap.mp hnodup).1 _ hit
    simp [Item.created] at this
  have hsecond : ∀ f g, (g, f) ∈ its.filterMap Item.bodyOf → g ∈ it.created →
      ∃ t l, it = .reserve t l g := by
    intro f g hf hg
    obtain ⟨t, l, hres⟩ := h.reserve_of_got (hcomp.got hf)
    exact ⟨t, l, h.eq_of_created hit hres hg (by simp [Item.created])⟩
  cases it with
  | skip => cases hm
  | slot i t l =>
      cases hm
      refine List.find?_eq_none.mpr fun q hq heq => ?_
      obtain ⟨t', l', hres⟩ := hsecond q.2 q.1 hq (by simpa [Item.created] using heq)
      cases hres
  | reserve t l g =>
      cases hm
      refine List.find?_eq_none.mpr fun q hq heq => ?_
      have heq : q.1 = l := by simpa using heq
      obtain ⟨t', l', hres⟩ := hsecond q.2 q.1 hq (by simp [Item.created, heq])
      cases hres
      exact hother q.2 q.1 t l hq (by simp [Item.created]) rfl heq.symm
  | body f g code =>
      cases hm
      have hmem : (g, f) ∈ its.filterMap Item.bodyOf := List.mem_filterMap.mpr ⟨_, hit, rfl⟩
      refine find?_eq_some_of_unique hmem ?_
      rintro ⟨g', f'⟩ hq rfl
      rw [h.got_inj (hcomp.got hq) (hcomp.got hmem)]

/-- **Labels are in order**: what binding relies on holds of the items. -/
theorem labelled_items (hread : Reading ps its st) (hcomp : CompiledWith V ps its st.toContext) :
    Labelled st.functionBodies its := by
  refine ⟨?_, ?_, ?_⟩
  · intro it hit m hm
    cases it with
    | skip => cases hm
    | slot i t l =>
        cases hm
        simp [Item.code]
    | reserve t l g =>
        cases hm
        simp [Item.code]
    | body f g code =>
        cases hm
        obtain ⟨i, hi, -⟩ := hcomp.closed _ hit
        refine List.length_pos_iff.mpr fun hnil => ?_
        simp only [Item.code] at hnil
        rw [hnil] at hi
        cases hi
  · intro it hit m hm
    rw [hread.emitted.functionBodies]
    exact hread.emitted.find?_bodyOf hcomp hit hm
  · rw [hcomp.functions]
    exact List.nodup_range.map (fun a b hab => Nat.add_left_cancel hab)

/-- And of the optimised ones. -/
theorem labelled_optimized (hread : Reading ps its st)
    (hcomp : CompiledWith V ps its st.toContext) :
    Labelled st.functionBodies (its.map Item.optimized) := by
  have hlab := labelled_items hread hcomp
  refine ⟨?_, ?_, ?_⟩
  · intro it' hit' m hm
    obtain ⟨it, hit, rfl⟩ := List.mem_map.mp hit'
    cases it with
    | body f g code =>
        cases hm
        obtain ⟨i, hi, hstop⟩ := hcomp.closed _ hit
        have hlast : (optimized code).getLast? = some i :=
          (optimized_getLast? (hcomp.closed _ hit).stops).trans hi
        refine List.length_pos_iff.mpr fun hnil => ?_
        simp only [Item.optimized, Item.code] at hnil
        rw [hnil] at hlast
        cases hlast
    | _ => exact hlab.inside _ hit m hm
  · intro it' hit' m hm
    obtain ⟨it, hit, rfl⟩ := List.mem_map.mp hit'
    rw [Item.mark_optimized] at hm
    rw [Item.bodyOf_optimized]
    exact hlab.function it hit m hm
  · have hmap : (its.map Item.optimized).filterMap Item.bodyOf = its.filterMap Item.bodyOf := by
      rw [List.filterMap_map]
      congr 1
      funext it
      exact Item.bodyOf_optimized it
    rw [hmap]
    exact hlab.once

/-! ## The binary of an accepted module

From here on the program is not followed any more: `Assembled` has the items, the
final list of instructions and the assembly of it, and everything else is arithmetic
on lengths. -/

/-- A module that was read, optimised, bound and assembled. -/
structure Assembled (E : Encoder) (len : Instr → ℕ) (ps : List Payload) (st : Compiling V)
    (its : List Item) (b : Binding) (assembly : Assembly) : Prop where
  reading : Reading ps its st
  compiled : CompiledWith V ps its st.toContext
  bound : Bound len (its.map Item.optimized) b
  assembled : E.assemble b.instructions b.bound = .ok assembly

/-- What `compile` makes of a module it has read. -/
theorem Reading.exists_assembled {asm : AssembledModule} (hE : E.Measured len)
    (hread : Reading ps its st) (hcomp : CompiledWith V ps its st.toContext)
    (hasm : assembleModule E st = .ok asm) :
    ∃ b assembly, Assembled E len ps st its b assembly ∧ bindLabels E st = .ok b ∧
      asm = ⟨{ st.module with functionBodies := b.functionBodies }, assembly.bytes⟩ := by
  simp only [assembleModule, Outcome.bind_eq_ok, Outcome.ofIced_eq_ok, Outcome.pure_eq_ok,
    Outcome.ok.injEq] at hasm
  obtain ⟨b, hb, assembly, hassembly, rfl⟩ := hasm
  refine ⟨b, assembly, ⟨hread, hcomp, ?_, hassembly⟩, hb, rfl⟩
  have hem := hread.emitted
  have hempty : Bound len [] ⟨[], [], ∅⟩ := ⟨rfl, rfl, fun f off => by simp [entriesFrom]⟩
  rw [bindLabels, hem.instructions, hem.labelIndices, optimize_items hcomp.closed,
    hem.entryPoints] at hb
  exact bindFrom_items hE (A := []) (labelled_optimized hread hcomp) hempty hb

/-- Whatever `compile` returns for a module in order has come about in this way. -/
theorem exists_assembled {asm : AssembledModule} (hE : E.Measured len) (hord : Ordered ps)
    (hst : ps.foldlM (handlePayload E) Compiling.init = .ok st)
    (hasm : assembleModule E st = .ok asm) :
    ∃ its b assembly, Assembled E len ps st its b assembly ∧ bindLabels E st = .ok b ∧
      asm = ⟨{ st.module with functionBodies := b.functionBodies }, assembly.bytes⟩ := by
  obtain ⟨its, hread, hcomp⟩ := reading_compiledWith hord hst
  exact ⟨its, hread.exists_assembled hE hcomp hasm⟩

@[simp] theorem Item.created_optimized (it : Item) : it.optimized.created = it.created := by
  cases it <;> rfl

/-- A label in front of which nothing was made stands at one place. -/
theorem Labelled.mark_ne {functions : List (Label × ℕ)} {A B : List Item} {it : Item}
    (h : Labelled functions (A ++ it :: B))
    (hcreated : ((A ++ it :: B).flatMap Item.created).Nodup) {m : ℕ × Label}
    (hm : it.mark = some m) {it' : Item} (hit' : it' ∈ A) {m' : ℕ × Label}
    (hm' : it'.mark = some m') : m'.2 ≠ m.2 := by
  intro heq
  -- the two items are bodies of one function, or none of them is a body
  have hsame : it'.bodyOf = it.bodyOf := by
    rw [← h.function it' (List.mem_append_left _ hit') m' hm', heq, h.function it (by simp) m hm]
  cases hbody : it.bodyOf with
  | some p =>
      have honce := h.once
      rw [List.filterMap_append, List.filterMap_cons, hbody, List.map_append] at honce
      refine (List.nodup_append.mp honce).2.2 p.2 ?_ p.2 (by simp) rfl
      exact List.mem_map.mpr ⟨p, List.mem_filterMap.mpr ⟨it', hit', hsame.trans hbody⟩, rfl⟩
  | none =>
      have hmade : ∀ {x : Item} {m : ℕ × Label}, x.bodyOf = none → x.mark = some m →
          m.2 ∈ x.created := by
        intro x m hx hm
        cases x with
        | skip => cases hm
        | slot i t l =>
            cases hm
            simp [Item.created]
        | reserve t l g =>
            cases hm
            simp [Item.created]
        | body f g code => cases hx
      rw [List.flatMap_append, List.flatMap_cons] at hcreated
      have hleft : m.2 ∈ A.flatMap Item.created :=
        List.mem_flatMap.mpr ⟨it', hit', heq ▸ hmade (hsame.trans hbody) hm'⟩
      have hright : m.2 ∈ it.created ++ B.flatMap Item.created :=
        List.mem_append_left _ (hmade hbody hm)
      exact (List.nodup_append.mp hcreated).2.2 _ hleft _ hright rfl

/-- A bound label is the label of an item. -/
theorem mem_boundFrom {k : ℕ} {its : List Item} {x : Label × ℕ} (h : x ∈ boundFrom k its) :
    ∃ it ∈ its, ∃ m, it.mark = some m ∧ m.2 = x.1 := by
  induction its generalizing k with
  | nil => cases h
  | cons it its ih =>
      rw [boundFrom, List.mem_append] at h
      rcases h with h | h
      · cases hm : it.mark with
        | none => simp [hm] at h
        | some m =>
            simp only [hm, Option.map_some, Option.toList_some, List.mem_singleton] at h
            exact ⟨it, List.mem_cons_self, m, hm, by rw [h]⟩
      · obtain ⟨it', hit', m, hm, hx⟩ := ih h
        exact ⟨it', List.mem_cons_of_mem _ hit', m, hm, hx⟩

/-- The final instructions around a label. -/
theorem Assembled.instructions_eq {b : Binding} {assembly : Assembly}
    (h : Assembled E len ps st its b assembly) {A B : List Item} {it : Item} {m : ℕ × Label}
    (hits : its.map Item.optimized = A ++ it :: B) (hm : it.mark = some m) :
    b.instructions = (boundCodeOf A ++ it.code.take m.1) ++
      .zeroBytes :: (it.code.drop m.1 ++ boundCodeOf B) := by
  have hitem : it.boundCode = it.code.take m.1 ++ .zeroBytes :: it.code.drop m.1 := by
    rw [Item.boundCode, hm]
  rw [h.bound.instructions, hits]
  simp [boundCodeOf, hitem]

/-- **Where a label is in the binary**: behind the items before its own, and
behind what stands in front of it there. -/
theorem Assembled.resolveLabel (hE : E.Measured len) {b : Binding} {assembly : Assembly}
    (h : Assembled E len ps st its b assembly) {A B : List Item} {it : Item} {m : ℕ × Label}
    (hits : its.map Item.optimized = A ++ it :: B) (hm : it.mark = some m) :
    resolveLabel assembly b.bound m.2 =
      some (codeSize len (codeOf A) + codeSize len (it.code.take m.1)) := by
  have hlab := labelled_optimized h.reading h.compiled
  have hcreated : ((its.map Item.optimized).flatMap Item.created).Nodup := by
    simp only [List.flatMap_map, Item.created_optimized]
    exact h.reading.emitted.created.imp (fun hlt => Nat.ne_of_lt hlt)
  rw [hits] at hlab hcreated
  have hfind : (b.bound.find? fun x => x.1 == m.2) = some (m.2, (boundCodeOf A).length + m.1) := by
    rw [h.bound.bound, hits, boundFrom_append, boundFrom, hm, List.find?_append, Nat.zero_add]
    have hA : ((boundFrom 0 A).find? fun x => x.1 == m.2) = none := by
      rw [List.find?_eq_none]
      intro x hx heq
      obtain ⟨it', hit', m', hm', hx'⟩ := mem_boundFrom hx
      exact hlab.mark_ne hcreated hm hit' hm' (by simpa [hx'] using heq)
    rw [hA]
    simp
  have hin := hlab.inside it (by simp) m hm
  have hsplit := h.instructions_eq hits hm
  have hlen : (boundCodeOf A ++ it.code.take m.1).length = (boundCodeOf A).length + m.1 := by
    rw [List.length_append, List.length_take_of_le hin.le]
  have htake : b.instructions.take ((boundCodeOf A).length + m.1) =
      boundCodeOf A ++ it.code.take m.1 := by
    rw [hsplit, ← hlen, List.take_left]
  have hlt : (boundCodeOf A).length + m.1 < b.instructions.length := by
    rw [hsplit, List.length_append, hlen, List.length_cons]
    omega
  rw [Parawasm.resolveLabel, hfind, Option.bind_some,
    hE.offsets _ _ _ h.assembled, if_pos hlt, htake, codeSize_append, codeSize_boundCodeOf hE]

/-! ## Sizes

Declarations take eight bytes each, bodies what is left of them after the optimiser. -/

/-- The item of a body. -/
def Item.ofBody (x : ℕ × Label × List Instr) : Item := .body x.1 x.2.1 x.2.2

/-- Behind the declarations there are the bodies and nothing else. -/
theorem Reading.exists_split (h : Reading ps its st) (hord : Ordered ps) :
    ∃ D, its = D ++ (its.filterMap Item.body?).map Item.ofBody ∧ ∀ it ∈ D, it.rank ≠ 11 := by
  obtain ⟨A, B, C, rfl, hA, hB, hC⟩ := h.exists_phases hord
  have hdecl : ∀ it ∈ A ++ B, it.rank ≠ 11 := by
    intro it hit
    rcases List.mem_append.mp hit with hit | hit
    · rw [hA it hit]
      decide
    · rw [hB it hit]
      decide
  have hbodies : ∀ C : List Item, (∀ it ∈ C, it.rank = 11) →
      (C.filterMap Item.body?).map Item.ofBody = C := by
    intro C
    induction C with
    | nil => exact fun _ => rfl
    | cons it C ih =>
        intro hC
        rw [List.forall_mem_cons] at hC
        cases it with
        | body f g code =>
            rw [List.filterMap_cons, Item.body?, List.map_cons, ih hC.2]
            rfl
        | _ => cases hC.1
  refine ⟨A ++ B, ?_, hdecl⟩
  rw [List.filterMap_append, body?_eq_nil hdecl, List.nil_append, hbodies C hC]

/-- Bodies declare nothing. -/
theorem declaredIndices_ofBody (cs : List (ℕ × Label × List Instr)) :
    declaredIndices (cs.map Item.ofBody) = [] := by
  rw [declaredIndices, List.filterMap_map, List.filterMap_eq_nil_iff]
  exact fun _ _ => rfl

/-- Eight bytes for each declared function. -/
theorem codeSize_declarations (hE : E.Measured len) {D : List Item} (h : ∀ it ∈ D, it.rank ≠ 11) :
    codeSize len (codeOf D) = 8 * (declaredIndices D).length := by
  induction D with
  | nil => rfl
  | cons it D ih =>
      rw [List.forall_mem_cons] at h
      have hcode : codeOf (it :: D) = it.code ++ codeOf D := rfl
      have hdecl : declaredIndices (it :: D) = it.typeIndex.toList ++ declaredIndices D := by
        rw [declaredIndices, List.filterMap_cons]
        cases it <;> rfl
      rw [hcode, codeSize_append, ih h.2, hdecl, List.length_append]
      cases it with
      | skip => simp [Item.code, Item.typeIndex, hE.zeroBytes]
      | slot i t l => simp [Item.code, Item.typeIndex, hE.zeroBytes, hE.dq, Nat.mul_add]
      | reserve t l g => simp [Item.code, Item.typeIndex, hE.dq, Nat.mul_add]
      | body f g code => exact absurd rfl h.1

/-- Declarations are not optimised. -/
theorem map_optimized_of_declarations {D : List Item} (h : ∀ it ∈ D, it.rank ≠ 11) :
    D.map Item.optimized = D := by
  conv_rhs => rw [← List.map_id D]
  refine List.map_congr_left fun it hit => ?_
  cases it with
  | body f g code => exact absurd rfl (h _ hit)
  | _ => rfl

/-- The bytes of optimised bodies. -/
theorem codeSize_bodies (len : Instr → ℕ) (cs : List (ℕ × Label × List Instr)) :
    codeSize len (codeOf ((cs.map Item.ofBody).map Item.optimized)) =
      (cs.map fun c => codeSize len (optimized c.2.2)).sum := by
  induction cs with
  | nil => rfl
  | cons c cs ih =>
      rw [List.map_cons, List.map_cons, List.map_cons, List.sum_cons, ← ih, ← codeSize_append]
      rfl

/-- The bodies in front of body `k`, and the declarations in front of them. -/
theorem Assembled.exists_body (hE : E.Measured len) (hord : Ordered ps) {b : Binding}
    {assembly : Assembly} (h : Assembled E len ps st its b assembly) {k f : ℕ} {g : Label}
    {code : List Instr} (hk : (its.filterMap Item.body?)[k]? = some (f, g, code)) :
    ∃ A B, its.map Item.optimized = A ++ .body f g (optimized code) :: B ∧
      codeSize len (codeOf A) = 8 * (countedFunctions ps).length +
        (((its.filterMap Item.body?).take k).map fun c => codeSize len (optimized c.2.2)).sum := by
  obtain ⟨D, hits, hD⟩ := h.reading.exists_split hord
  obtain ⟨hlt, hk⟩ := List.getElem?_eq_some_iff.mp hk
  have hcounted : declaredIndices D = countedFunctions ps := by
    rw [← h.reading.declaredIndices, hits, declaredIndices_append, declaredIndices_ofBody,
      List.append_nil]
  generalize its.filterMap Item.body? = cs at hits hlt hk
  have hcs : cs = cs.take k ++ (f, g, code) :: cs.drop (k + 1) := by
    rw [← hk, ← List.drop_eq_getElem_cons hlt, List.take_append_drop]
  refine ⟨D ++ ((cs.take k).map Item.ofBody).map Item.optimized,
    ((cs.drop (k + 1)).map Item.ofBody).map Item.optimized, ?_, ?_⟩
  · rw [hits, List.map_append, map_optimized_of_declarations hD, List.append_assoc]
    conv_lhs => rw [hcs]
    rw [List.map_append, List.map_append]
    rfl
  · rw [codeOf_append, codeSize_append, codeSize_declarations hE hD, hcounted, codeSize_bodies]

/-- The functions with an entry point are those with a body. -/
theorem Assembled.isSome_entry {b : Binding} {assembly : Assembly}
    (h : Assembled E len ps st its b assembly) (i : ℕ) :
    b.functionBodies[i]?.isSome ↔ ∃ g, (g, i) ∈ its.filterMap Item.bodyOf := by
  have hfst := entriesFrom_fst len 0 (its.map Item.optimized)
  rw [List.filterMap_map] at hfst
  have hsame : Item.bodyOf ∘ Item.optimized = Item.bodyOf := funext Item.bodyOf_optimized
  rw [hsame] at hfst
  rw [Option.isSome_iff_exists]
  simp only [h.bound.entries]
  have hmem : i ∈ (entriesFrom len 0 (its.map Item.optimized)).map Prod.fst ↔
      i ∈ (its.filterMap Item.bodyOf).map Prod.snd := by rw [hfst]
  simpa using hmem

/-- The functions with a body are the defined ones. -/
theorem CompiledWith.mem_bodyOf (h : CompiledWith V ps its st.toContext) (i : ℕ) :
    (∃ g, (g, i) ∈ its.filterMap Item.bodyOf) ↔
      (functionImports ps).length ≤ i ∧
        i < (functionImports ps).length + (its.filterMap Item.body?).length := by
  have hleft : i ∈ (its.filterMap Item.bodyOf).map Prod.snd ↔
      ∃ g, (g, i) ∈ its.filterMap Item.bodyOf := by simp
  rw [← hleft, h.functions, List.mem_map]
  simp only [List.mem_range]
  constructor
  · rintro ⟨k, hk, rfl⟩
    omega
  · rintro ⟨hle, hlt⟩
    exact ⟨i - (functionImports ps).length, by omega, by omega⟩

/-! ## Entry points

What is found under an index, and where that is in the binary. -/

/-- By index, the entry point is the entry of the map. -/
theorem functionEntryPoint_eq (m : Module) (i : ℕ) :
    m.functionEntryPoint i = m.functionBodies[i]? := by
  change (m.functionBodies[i]?.map fun _ => i).bind _ = _
  cases h : m.functionBodies[i]? with
  | none => rfl
  | some off => simp [h]

/-- A stack height needs an entry in both maps. -/
theorem isSome_functionStackHeight (m : Module) (i : ℕ) :
    (m.functionStackHeight i).isSome ↔
      m.functionBodies[i]?.isSome ∧ i ∈ m.functionStackHeights := by
  change ((m.functionBodies[i]?.map fun _ => i).bind _).isSome ↔ _
  cases m.functionBodies[i]? with
  | none => simp
  | some off => simp

/-- Function `i` with this code starts at this offset of the binary: that is its
entry point, the first of its optimised instructions is encoded there with the
others behind it, and direct calls of it go there.  The call is that of any body of
the module, through the map `got`. -/
structure StartsAt (st : Compiling V) (b : Binding) (assembly : Assembly) (asm : AssembledModule)
    (i : ℕ) (code : List Instr) (off : ℕ) : Prop where
  entryPoint : asm.module.functionEntryPoint i = some off
  encoded : ∃ idx : ℕ, assembly.offsets[idx]? = some off ∧
    optimized code ≠ [] ∧ optimized code <+: b.instructions.drop idx
  called : ∀ locals call l, handleInstruction st.toContext locals (.call i) = .ok call →
    .callLabel l ∈ call → resolveLabel assembly b.bound l = some off

/-- A call pops, calls and pushes. -/
theorem mem_call {ctx : Context} {locals : List ℕ} {f : ℕ} {call : List Instr} {i : Instr}
    (h : handleInstruction ctx locals (.call f) = .ok call) (hi : i ∈ call) :
    (∃ r, i = .pop r) ∨ i ∈ callCode ctx f ∨ ∃ r, i = .push r := by
  simp only [handleInstruction, Outcome.bind_eq_ok, Outcome.pure_eq_ok, Outcome.ok.injEq] at h
  obtain ⟨ty, -, order, -, args, hargs, results, hresults, rfl⟩ := h
  simp only [List.mem_append] at hi
  rcases hi with (hi | hi) | hi
  · obtain ⟨rs, rfl, -, -⟩ := popArgs_eq_ok hargs
    obtain ⟨r, -, rfl⟩ := List.mem_map.mp hi
    exact .inl ⟨r, rfl⟩
  · exact .inr (.inl hi)
  · rw [moveResults_eq_ok hresults] at hi
    obtain ⟨r, -, rfl⟩ := List.mem_map.mp hi
    exact .inr (.inr ⟨r, rfl⟩)

/-- A direct call is a call of the label of the function. -/
theorem callLabel_mem {ctx : Context} {locals : List ℕ} {f : ℕ} {call : List Instr} {l : Label}
    (h : handleInstruction ctx locals (.call f) = .ok call) (hl : .callLabel l ∈ call) :
    ctx.got[f]? = some l := by
  rcases mem_call h hl with ⟨r, hr⟩ | hl | ⟨r, hr⟩
  · cases hr
  · rw [callCode] at hl
    split at hl
    · split at hl <;> simp at hl
    · rename_i label hgot
      simp only [List.mem_singleton, Instr.callLabel.injEq] at hl
      rw [hgot, hl]
  · cases hr

/-- Body `k` starts where the items before it end. -/
theorem Assembled.startsAt (hE : E.Measured len) (hord : Ordered ps) {b : Binding}
    {assembly : Assembly} {asm : AssembledModule} (h : Assembled E len ps st its b assembly)
    (hasm : asm.module.functionBodies = b.functionBodies) {k f : ℕ} {g : Label}
    {code : List Instr} (hk : (its.filterMap Item.body?)[k]? = some (f, g, code)) :
    StartsAt st b assembly asm f code (8 * (countedFunctions ps).length +
      (((its.filterMap Item.body?).take k).map fun c => codeSize len (optimized c.2.2)).sum) := by
  obtain ⟨A, B, hits, hsize⟩ := h.exists_body hE hord hk
  have hmark : (Item.body f g (optimized code)).mark = some (0, g) := rfl
  have hin : optimized code ≠ [] := List.length_pos_iff.mp <|
    (labelled_optimized h.reading h.compiled).inside (.body f g (optimized code)) (by simp [hits])
      _ hmark
  have hsplit : b.instructions =
      (boundCodeOf A ++ [.zeroBytes]) ++ (optimized code ++ boundCodeOf B) := by
    rw [h.instructions_eq hits hmark]
    simp [Item.code]
  have hlen : (boundCodeOf A ++ [Instr.zeroBytes]).length = (boundCodeOf A).length + 1 := by simp
  rw [← hsize]
  refine ⟨?_, ⟨(boundCodeOf A).length + 1, ?_, hin, ?_⟩, ?_⟩
  · rw [functionEntryPoint_eq, hasm, h.bound.entries, hits, entriesFrom_append, entriesFrom]
    simp [Item.bodyOf]
  · have hlt : (boundCodeOf A).length + 1 < b.instructions.length := by
      have := List.length_pos_iff.mpr hin
      rw [hsplit, List.length_append, hlen, List.length_append]
      omega
    rw [hE.offsets _ _ _ h.assembled, if_pos hlt, hsplit, ← hlen, List.take_left, codeSize_append,
      codeSize_boundCodeOf hE, codeSize_cons, hE.zeroBytes]
    rfl
  · rw [hsplit, ← hlen, List.drop_left]
    exact List.prefix_append _ _
  · intro locals call l hcall hl
    have hg : st.got[f]? = some g := (h.compiled k f g code hk).2.1
    have hgl : l = g := Option.some.inj ((callLabel_mem hcall hl).symm.trans hg)
    rw [hgl, h.resolveLabel hE hits hmark]
    simp

/-- **Entry points are exact.**  In a module that `compile` accepts, with `m`
function imports and `d` defined functions, the functions with an entry point and a
stack height are `m`, ..., `m + d - 1`, and each of them starts behind the `8 * (m +
d)` bytes of slots and the optimised bodies before it.

`Measured` is what the documentation of the assembler says of lengths, and with it
offsets are sums over the code that stands in front.  Modules inside of modules are
left out (`hplain`): their functions would be counted with those of the module
around them.  Stack heights are listed with entry points, and `compile` writes both
down together. -/
theorem entry_points_exact {V : Validator} {E : Encoder} {P : Parser} {len : Instr → ℕ}
    {n : ℕ} {module : List UInt8} {asm : AssembledModule} (hE : E.Measured len) (hV : V.Sound)
    (hP : P.Documented) (hplain : ∀ p ∈ (scan P module).1, p.nests = false)
    (h : compileWithin E P V n module = some (.ok asm)) :
    ∃ (st : Compiling V) (b : Binding) (assembly : Assembly) (codes : List (List Instr)) (m d : ℕ),
      compilePayloads E (scan P module).1 = .ok st ∧ bindLabels E st = .ok b ∧
      E.assemble b.instructions b.bound = .ok assembly ∧ asm.assembled = assembly.bytes ∧
      m = (functionImports (scan P module).1).length ∧
      d = (definedFunctions (scan P module).1).length ∧ d = codes.length ∧
      (∀ i : ℕ, ((asm.module.functionEntryPoint i).isSome ↔ m ≤ i ∧ i < m + d) ∧
        ((asm.module.functionStackHeight i).isSome ↔ m ≤ i ∧ i < m + d)) ∧
      ∀ (k : ℕ) (code : List Instr), codes[k]? = some code →
        (∃ body ty φ height, (bodies (scan P module).1)[k]? = some body ∧
          st.functionType (m + k) = some ty ∧
          compileBody V st.toContext ty φ body = .ok (code, height)) ∧
        StartsAt st b assembly asm (m + k) code
          (8 * (m + d) + ((codes.take k).map fun c => codeSize len (optimized c)).sum) := by
  obtain ⟨st, hst, hasm⟩ := compileWithin_eq_ok hP h
  have hvalid := hV.valid _ (accepts_of_compilePayloads hst) hplain
  generalize (scan P module).1 = ps at hst hvalid
  have hfold := foldlM_of_compilePayloads hst
  obtain ⟨its, b, assembly, hfinal, hb, rfl⟩ := exists_assembled hE hvalid.ordered hfold hasm
  have hlen : (its.filterMap Item.body?).length = (definedFunctions ps).length :=
    hfinal.reading.length_bodies.trans hvalid.bodyCount
  have hcounted : (countedFunctions ps).length =
      (functionImports ps).length + (definedFunctions ps).length := by
    rw [countedFunctions_of_ordered hvalid.ordered, List.length_append]
  have hsome := hfinal.isSome_entry
  have hheight := hfinal.reading.emitted.heights
  rw [hfinal.reading.emitted.functionBodies] at hheight
  refine ⟨st, b, assembly, (its.filterMap Item.body?).map fun c => c.2.2, _, _, hst, hb,
    hfinal.assembled, rfl, rfl, rfl, by simp [hlen], fun i => ⟨?_, ?_⟩, fun k code hk => ?_⟩
  · rw [functionEntryPoint_eq, ← hlen, ← hfinal.compiled.mem_bodyOf]
    exact hsome i
  · rw [isSome_functionStackHeight, ← hlen, ← hfinal.compiled.mem_bodyOf]
    change b.functionBodies[i]?.isSome ∧ i ∈ _ ↔ _
    rw [hsome, hheight, and_self_iff]
  · rw [List.getElem?_map, Option.map_eq_some_iff] at hk
    obtain ⟨⟨f, g, code⟩, hk, rfl⟩ := hk
    obtain ⟨rfl, -, hbody⟩ := hfinal.compiled k f g code hk
    refine ⟨hbody, ?_⟩
    rw [← List.map_take, List.map_map, ← hcounted]
    exact hfinal.startsAt hE hvalid.ordered rfl hk

/-- A module that imports function `0` and defines `1`, which calls `2`, and `2`,
which does nothing. -/
def callingModule : Script :=
  [(preamble, .version 1),
    ([0x01, 0x04, 0x01, 0x60, 0x00, 0x00], .typeSection ⟨[.func ⟨[], []⟩], none⟩),
    ([0x02, 0x09, 0x01, 0x03, 0x65, 0x6e, 0x76, 0x01, 0x66, 0x00, 0x00],
      .importSection ⟨[⟨"env", some "f", .function 0⟩], none⟩),
    ([0x03, 0x03, 0x02, 0x00, 0x00], .functionSection ⟨[0, 0], none⟩),
    ([0x0a, 0x09, 0x02], .codeSectionStart 2),
    ([0x04, 0x00, 0x10, 0x02, 0x0b], .codeSectionEntry ⟨⟨[], none⟩, ⟨[.call 2, .end], none⟩⟩),
    ([0x02, 0x00, 0x0b], .codeSectionEntry ⟨⟨[], none⟩, ⟨[.end], none⟩⟩)]

/-- Its entry points, behind `24` bytes of slots.  The second body is left with a
lone `ret`. -/
theorem entry_points_exact_instance :
    ∃ (asm : AssembledModule) (st : Compiling Validator.reference) (b : Binding)
      (assembly : Assembly) (codes : List (List Instr)),
      compileWithin Encoder.reference (parserOf callingModule) Validator.reference 20
        (Script.bytes callingModule) = some (.ok asm) ∧
      asm.module.functionEntryPoint 1 = some 24 ∧ asm.module.functionEntryPoint 2 = some 38 ∧
      codes.length = 2 ∧
      ∀ (k : ℕ) (code : List Instr), codes[k]? = some code →
        StartsAt st b assembly asm (1 + k) code
          (8 * (1 + 2) + ((codes.take k).map fun c => codeSize encodedLength (optimized c)).sum) := by
  obtain ⟨asm, h, h₁, h₂⟩ : ∃ asm, compileWithin Encoder.reference (parserOf callingModule)
      Validator.reference 20 (Script.bytes callingModule) = some (.ok asm) ∧
      asm.module.functionEntryPoint 1 = some 24 ∧ asm.module.functionEntryPoint 2 = some 38 :=
    ⟨_, rfl, rfl, rfl⟩
  obtain ⟨st, b, assembly, codes, m, d, -, -, -, -, hm, hd, hlen, -, hstarts⟩ :=
    entry_points_exact Encoder.reference_measured Validator.reference_sound
      (parserOf_documented callingModule) (of_decide_eq_true rfl) h
  have hm : m = 1 := hm
  have hd : d = 2 := hd
  subst hm hd
  exact ⟨asm, st, b, assembly, codes, h, h₁, h₂, hlen.symm, fun k code hk => (hstarts k code hk).2⟩

end ParaOS.Parawasm

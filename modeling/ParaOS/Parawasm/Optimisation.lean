import Mathlib.Data.List.Chain
import ParaOS.Parawasm.Integrity
import ParaOS.Parawasm.Peephole
import ParaOS.X86.Refinement

/-!
# Optimised code in the place of emitted code

The rule that takes out two opposite moves is only sound where the register it
leaves unassigned is not read.  In emitted code it applies nowhere, with one
exception: pushes stand behind instructions that no rule mentions or behind other
pushes, so the moves that pushes and pops become are never next to each other
(`Tidy`).  The exception is a function without params, operators and results, whose
frame is set up and torn down at once.

So straight-line code collapses to what the optimiser makes of it, and collapsed
code does in an activation what the code did (`run_collapse`).

### Two obstacles

**The third rule is not sound.**  It takes out `mov a, b; mov b, a`, and with it an
assignment.  That it does no harm in compiled code is a fact about the code: `Tidy`
is a condition on neighbours, `Beside`, which every operator's code meets and which
composes.

**An allocation changes what is in the frame.**  `sub rsp, n` brings garbage into it
that differs between the two programs.  So an allocation is never part of a stretch
of tidy code; the prologue is dealt with as a whole, with the stores that overwrite
all that it allocates.

### What is load-bearing

No declared locals, for the second.  Their slots are allocated and not stored, so
the two programs would start with different values in them, and a body that reads
one returns different results.

Functions that are called are there (`callCode` is not empty).  Where it were, the
pushes of results would stand behind pops of arguments, and `push`, `pop` and moves
could meet.
-/

namespace ParaOS.Parawasm

open Machine X86 Wasm

/-! ## Where the third rule does not apply

A list is collapsed from left to right, on a stack, and what may come to lie next to
what is followed by two relations: `Beside` on the list and `Upon` on the stack. -/

/-- Which instruction may stand behind which in tidy code. -/
def Beside : Instr → Instr → Prop
  | i, .push _ => stop i = true ∨ ∃ a, i = .push a
  | i, .mov a b => a ≠ b ∧ (∀ c d, i ≠ .mov c d) ∧ i ≠ .pop b
  | _, _ => True

/-- Code in which no two opposite moves come up, behind an instruction no rule
mentions. -/
def Tidy (is : List Instr) : Prop := (Instr.nop :: is).IsChain Beside

/-- Which instruction may lie on top of which in a collapsed list, given back to
front. -/
def Upon : Instr → Instr → Prop
  | .push _, i => stop i = true ∨ ∃ a, i = .push a
  | .mov a b, i => i ≠ .mov b a
  | _, _ => True

/-- What may be on top when an instruction has been collapsed. -/
def Leaves : Instr → Instr → Prop
  | .pop b, j => stop j = true ∨ (∃ a, j = .push a) ∨ j = .pop b ∨ ∃ a, j = .mov b a
  | i, j => j = i

/-- What may stand behind something may stand behind a `nop`. -/
theorem beside_nop {i j : Instr} (h : Beside i j) : Beside .nop j := by
  cases j with
  | push a => exact .inl rfl
  | mov a b => exact ⟨h.1, by simp, by simp⟩
  | _ => trivial

/-- A stack of which the top may lie where it does. -/
theorem isChain_upon_cons {i : Instr} {done : List Instr} (h : done.IsChain Upon)
    (hi : ∀ j ∈ done.head?, Upon i j) : (i :: done).IsChain Upon := by
  cases done with
  | nil => exact .singleton i
  | cons j done => exact .cons_cons (hi j rfl) h

/-- One instruction behind collapsed tidy code. -/
theorem collapseStep_tidy {i j : Instr} {done : List Instr} (hij : Beside i j)
    (hdone : done.IsChain Upon) (hi : ∀ k ∈ done.head?, Leaves i k) :
    (collapseStep done j).IsChain Upon ∧ ∀ k ∈ (collapseStep done j).head?, Leaves j k := by
  have hcons : (∀ k ∈ done.head?, Upon j k) → Leaves j j →
      (j :: done).IsChain Upon ∧ ∀ k ∈ (j :: done).head?, Leaves j k := by
    intro hupon hleaves
    refine ⟨isChain_upon_cons hdone hupon, fun k hk => ?_⟩
    cases hk
    exact hleaves
  cases j with
  | push a =>
      refine hcons (fun k hk => ?_) rfl
      have hk := hi k hk
      rcases hij with hstop | ⟨b, rfl⟩
      · cases i with
        | pop b => cases hstop
        | _ => exact .inl (hk ▸ hstop)
      · exact .inr ⟨b, hk⟩
  | mov a b =>
      obtain ⟨hab, hmov, hpop⟩ := hij
      rw [collapseStep, if_neg hab]
      refine hcons (fun k hk => ?_) rfl
      have hk := hi k hk
      rintro rfl
      cases i with
      | pop c =>
          rcases hk with hk | ⟨d, hk⟩ | hk | ⟨d, hk⟩
          · cases hk
          · cases hk
          · cases hk
          · cases hk
            exact hpop rfl
      | mov c d => exact hmov c d rfl
      | _ => cases hk
  | pop b =>
      cases done with
      | nil => exact hcons (fun k _ => trivial) (.inr (.inr (.inl rfl)))
      | cons k rest =>
          cases k with
          | push a =>
              have hrest : ∀ k ∈ rest.head?, Upon (.push a) k := by
                intro k hk
                cases rest with
                | nil => cases hk
                | cons l rest =>
                    cases hk
                    exact (List.isChain_cons_cons.mp hdone).1
              rw [collapseStep]
              split_ifs with hab
              · refine ⟨hdone.tail, fun k hk => ?_⟩
                exact (hrest k hk).imp_right .inl
              · refine ⟨isChain_upon_cons hdone.tail fun k hk => ?_, fun k hk => ?_⟩
                · rintro rfl
                  rcases hrest _ hk with hk | ⟨d, hk⟩ <;> cases hk
                · cases hk
                  exact .inr (.inr (.inr ⟨a, rfl⟩))
          | _ => exact hcons (fun k _ => trivial) (.inr (.inr (.inl rfl)))
  | _ => exact hcons (fun k _ => trivial) rfl

/-- All instructions behind collapsed tidy code. -/
theorem foldl_collapseStep_tidy {i : Instr} {is done : List Instr}
    (his : (i :: is).IsChain Beside) (hdone : done.IsChain Upon)
    (hi : ∀ k ∈ done.head?, Leaves i k) : (is.foldl collapseStep done).IsChain Upon := by
  induction is generalizing i done with
  | nil => exact hdone
  | cons j is ih =>
      obtain ⟨hij, his⟩ := List.isChain_cons_cons.mp his
      obtain ⟨hdone', hj⟩ := collapseStep_tidy hij hdone hi
      exact ih his hdone' hj

/-- **No opposite moves come up in tidy code.** -/
theorem Tidy.not_hasSwap {is : List Instr} (h : Tidy is) : ¬ HasSwap (collapse is) := by
  rintro ⟨pre, post, a, b, -, hsplit⟩
  have hchain : (is.foldl collapseStep []).IsChain Upon := foldl_collapseStep_tidy h .nil (by simp)
  have hdone : is.foldl collapseStep [] = post.reverse ++ .mov b a :: .mov a b :: pre.reverse := by
    rw [← List.reverse_reverse (is.foldl collapseStep []), ← collapse, hsplit]
    simp
  rw [hdone] at hchain
  exact (List.isChain_append_cons_cons.mp hchain).2.1 rfl

/-- So tidy code is only collapsed. -/
theorem Tidy.optimized_eq {is : List Instr} (h : Tidy is) : optimized is = collapse is :=
  optimized_eq_collapse_iff.mpr h.not_hasSwap

/-! ## Collapsed code

The states of the two programs are compared as in `ParaOS.X86.Refinement`, with the
collapsed list in place of the second. -/

variable {P P' : Program} {f : Frame} {p q : Phase} {s s' t : X86.State} {i : Instr}
  {is done : List Instr}

/-- A stack is run from its bottom. -/
theorem run_reverse_cons {u : X86.State} :
    P.run (i :: done).reverse s = some u ↔
      ∃ s₁, P.run done.reverse s = some s₁ ∧ P.perform i s₁ = some u := by
  rw [List.reverse_cons, Program.run_append, Option.bind_eq_some_iff]
  refine exists_congr fun s₁ => and_congr_right fun _ => ?_
  rw [Program.run_cons, Option.bind_eq_some_iff]
  constructor
  · rintro ⟨u', hu', h⟩
    cases h
    exact hu'
  · exact fun h => ⟨u, h, rfl⟩

/-- One instruction behind collapsed code. -/
theorem alike_collapseStep {s₀ : X86.State} (hword : P'.word = P.word)
    (hp : advance p i = some q) (hi : ∀ n, i ≠ .subRsp n) (hin : InPhase f p s)
    (h : Alike f p s s') (hdone : P'.run done.reverse s₀ = some s')
    (habove : SameAbove f.top s₀ s') (hs : P.perform i s = some t) :
    ∃ t', P'.run (collapseStep done i).reverse s₀ = some t' ∧ Alike f q t t' ∧
      SameAbove f.top s₀ t' := by
  obtain ⟨t', ht', halike, habove'⟩ := h.perform hword hp hi hin hs
  have hcons : ∃ t', P'.run (i :: done).reverse s₀ = some t' ∧ Alike f q t t' ∧
      SameAbove f.top s₀ t' :=
    ⟨t', run_reverse_cons.mpr ⟨s', hdone, ht'⟩, halike, habove.trans habove'⟩
  cases i with
  | pop b =>
      cases done with
      | nil => exact hcons
      | cons j rest =>
          cases j with
          | push a =>
              obtain ⟨u, hrest, hu⟩ := run_reverse_cons.mp hdone
              obtain ⟨halike, hu'⟩ := h.pop_of_push hp hin hs hu
              rw [collapseStep]
              split_ifs with hab
              · subst hab
                rw [State.set, Function.update_eq_self] at halike
                exact ⟨u, hrest, halike, habove.trans hu'⟩
              · exact ⟨_, run_reverse_cons.mpr ⟨u, hrest, rfl⟩, halike, habove.trans hu'⟩
          | _ => exact hcons
  | mov a b =>
      rw [collapseStep]
      split_ifs with hab
      · subst hab
        rw [advance_self] at hp
        cases hp
        cases hs
        rw [State.set, Function.update_eq_self]
        exact ⟨s', hdone, h, habove⟩
      · exact hcons
  | _ => exact hcons

/-- **Collapsed code in the place of straight-line code.** -/
theorem run_collapse {s₀ : X86.State} (hword : P'.word = P.word)
    (hp : advances p is = some q) (hi : ∀ n, .subRsp n ∉ is) (hin : InPhase f p s)
    (h : Alike f p s s') (hdone : P'.run done.reverse s₀ = some s')
    (habove : SameAbove f.top s₀ s') (hs : P.run is s = some t) :
    ∃ t', P'.run (is.foldl collapseStep done).reverse s₀ = some t' ∧ Alike f q t t' ∧
      SameAbove f.top s₀ t' := by
  induction is generalizing p s s' done with
  | nil =>
      cases hp
      cases hs
      exact ⟨s', hdone, h, habove⟩
  | cons i is ih =>
      rw [advances, Option.bind_eq_some_iff] at hp
      obtain ⟨p₁, hp₁, hp⟩ := hp
      rw [Program.run_cons, Option.bind_eq_some_iff] at hs
      obtain ⟨s₁, hs₁, hs⟩ := hs
      have hi₁ : ∀ n, i ≠ .subRsp n := by
        rintro n rfl
        exact hi n List.mem_cons_self
      obtain ⟨s₁', hdone', halike, habove'⟩ :=
        alike_collapseStep hword hp₁ hi₁ hin h hdone habove hs₁
      exact ih hp (fun n hn => hi n (List.mem_cons_of_mem _ hn)) (inPhase_perform hp₁ hin hs₁).1
        halike hdone' habove' hs

/-- The rules make moves, which are plain. -/
theorem plain_optimized (h : ∀ i ∈ is, plain i = true) : ∀ i ∈ optimized is, plain i = true := by
  refine optimized_induction (p := fun js => ∀ i ∈ js, plain i = true) (fun js hjs i hi => ?_) h
  rcases (rewrites_pass js).mem hi with hi | ⟨a, b, rfl⟩
  · exact hjs i hi
  · rfl

/-- **Optimised straight-line code in the place of tidy code.** -/
theorem Tidy.simulates (h : Tidy is) (hword : P'.word = P.word) (hp : advances p is = some q)
    (hplain : ∀ i ∈ is, plain i = true) (hi : ∀ n, .subRsp n ∉ is) :
    Simulates P P' p q is (optimized is) := by
  refine ⟨hp, hplain, plain_optimized hplain, ?_⟩
  intro f s s' t hin halike hs
  rw [h.optimized_eq]
  have hnil : P'.run ([] : List Instr).reverse s' = some s' := rfl
  exact run_collapse hword hp hi hin halike hnil (sameAbove_of_mem rfl) hs

/-! ## Code with calls

Between two calls code is straight-line and tidy, and the optimiser does not look
across a call. -/

/-- Calls and returns are not mentioned by any rule. -/
theorem stop_of_not_plain (h : plain i = false) : stop i = true := by
  cases i with
  | callLabel l => rfl
  | callReg r => rfl
  | ret => rfl
  | _ => cases h

/-- A front of tidy code is tidy, -/
theorem Tidy.left {js : List Instr} (h : Tidy (is ++ js)) : Tidy is := by
  have h : ((Instr.nop :: is) ++ js).IsChain Beside := h
  exact h.left_of_append

/-- as is what may stand behind any instruction, -/
theorem tidy_of_isChain_cons (h : (i :: is).IsChain Beside) : Tidy is := by
  cases is with
  | nil => exact .singleton _
  | cons j is =>
      obtain ⟨hij, h⟩ := List.isChain_cons_cons.mp h
      exact .cons_cons (beside_nop hij) h

/-- and what is behind an instruction of it. -/
theorem Tidy.right {js : List Instr} (h : Tidy (is ++ i :: js)) : Tidy js := by
  have h : ((Instr.nop :: is) ++ i :: js).IsChain Beside := h
  exact tidy_of_isChain_cons h.right_of_append

/-- An instruction no rule mentions is left behind the others. -/
theorem collapse_concat (hi : stop i = true) : collapse (is ++ [i]) = collapse is ++ [i] := by
  have hstep : ∀ done, collapseStep done i = i :: done := by
    intro done
    cases i with
    | push a => cases hi
    | pop a => cases hi
    | mov a b => cases hi
    | _ => rfl
  rw [collapse, collapse, List.foldl_append, List.foldl_cons, List.foldl_nil, hstep,
    List.reverse_cons]

/-- The optimiser works on both sides of a call separately. -/
theorem Tidy.optimized_split {js : List Instr} (h : Tidy (is ++ i :: js)) (hi : stop i = true) :
    optimized (is ++ i :: js) = optimized is ++ i :: optimized js := by
  rw [List.append_cons] at h
  rw [List.append_cons, optimized_append js (stops_concat hi), h.left.optimized_eq,
    h.left.left.optimized_eq, collapse_concat hi, List.append_assoc, List.singleton_append]

/-- Accepted code comes to a call or a `ret`. -/
theorem exists_split (h : accepts p is = true) :
    ∃ seg i rest, is = seg ++ i :: rest ∧ (∀ j ∈ seg, plain j = true) ∧ plain i = false := by
  induction is generalizing p with
  | nil => cases h
  | cons i is ih =>
      cases hi : plain i with
      | false => exact ⟨[], i, is, rfl, by simp, hi⟩
      | true =>
          obtain ⟨p', -, h⟩ := (accepts_cons (by rintro rfl; cases hi)).mp h
          obtain ⟨seg, j, rest, rfl, hseg, hj⟩ := ih h
          exact ⟨i :: seg, j, rest, rfl, List.forall_mem_cons.mpr ⟨hi, hseg⟩, hj⟩

/-- A call in accepted code, of either kind. -/
theorem accepts_call (hi : plain i = false) (hne : i ≠ .ret) (h : accepts p (i :: is) = true) :
    ∃ a n, p = .framed a n ∧ accepts p is = true := by
  cases i with
  | callLabel l => exact accepts_callLabel h
  | callReg r => exact accepts_callReg h
  | ret => exact absurd rfl hne
  | _ => cases hi

/-- **Optimised code in the place of tidy code**, calls included. -/
theorem Tidy.faithful {code : List Instr} (h : Tidy code) (hword : P'.word = P.word)
    (hi : ∀ n, .subRsp n ∉ code) (hacc : accepts p code = true) (rest rest' : List Instr) :
    Faithful P P' p (code ++ rest) (optimized code ++ rest') := by
  -- on what is left behind a call
  induction hlen : code.length using Nat.strong_induction_on generalizing code p with
  | _ n ih =>
    obtain ⟨seg, i, tail, rfl, hseg, hplain⟩ := exists_split hacc
    obtain ⟨q, hq, hacc⟩ := exists_advances (ret_not_mem hseg) hacc
    have hsim : Simulates P P' p q seg (optimized seg) :=
      h.left.simulates hword hq hseg fun n hn => hi n (List.mem_append_left _ hn)
    rw [h.optimized_split (stop_of_not_plain hplain), List.append_assoc, List.append_assoc,
      List.cons_append, List.cons_append]
    by_cases hret : i = .ret
    · subst hret
      exact .ret hsim
    · obtain ⟨a, m, rfl, hacc⟩ := accepts_call hplain hret hacc
      refine .call i hplain hret hsim (ih tail.length ?_ h.right ?_ hacc rfl)
      · rw [← hlen]
        simp only [List.length_append, List.length_cons]
        omega
      · exact fun n hn => hi n (List.mem_append_right _ (List.mem_cons_of_mem _ hn))

/-! ## The code of a body

The pieces of a body, one after the other, with what may stand behind each of them. -/

/-- Instructions of operators: no moves between registers, and nothing of the
frame. -/
def mild : Instr → Bool
  | .mov _ _ => false
  | .pop r => r ≠ .rbp
  | .subRsp _ => false
  | _ => true

/-- Code that may stand behind any instruction, with only mild ones in it. -/
structure Modest (is : List Instr) : Prop where
  chain : is.IsChain Beside
  leads : ∀ i ∈ is.head?, ∀ j, Beside j i
  all : ∀ i ∈ is, mild i = true

/-- Pieces of this kind can be put together. -/
theorem Modest.append {js : List Instr} (h : Modest is) (h' : Modest js) : Modest (is ++ js) where
  chain := h.chain.append h'.chain fun i _ j hj => h'.leads j hj i
  leads := by
    cases is with
    | nil => exact h'.leads
    | cons i is => exact h.leads
  all := by
    intro i hi
    exact (List.mem_append.mp hi).elim (h.all i) (h'.all i)

/-- Pops may stand behind anything and each other, -/
theorem modest_pops {rs : List Reg} (hrs : ∀ r ∈ rs, r ≠ .rbp) : Modest (rs.map .pop) := by
  induction rs with
  | nil => exact ⟨.nil, by simp, by simp⟩
  | cons r rs ih =>
      rw [List.forall_mem_cons] at hrs
      have hone : Modest [.pop r] := by
        refine ⟨.singleton _, fun i hi => ?_, by simp [mild, hrs.1]⟩
        cases hi
        exact fun _ => trivial
      exact hone.append (ih hrs.2)

/-- and pushes behind an instruction no rule mentions. -/
theorem isChain_pushes {rs : List Reg} (hi : stop i = true) :
    (i :: rs.map .push).IsChain Beside := by
  have hpushes : ∀ (rs : List Reg) (r : Reg), (Instr.push r :: rs.map .push).IsChain Beside := by
    intro rs
    induction rs with
    | nil => exact fun r => .singleton _
    | cons r' rs ih => exact fun r => .cons_cons (.inr ⟨r, rfl⟩) (ih r')
  cases rs with
  | nil => exact .singleton i
  | cons r rs => exact .cons_cons (.inl hi) (hpushes rs r)

/-- The call itself and the pushes of its results. -/
theorem modest_callCode {ctx : Context} {g : ℕ} (h : callCode ctx g ≠ []) (rs : List Reg) :
    Modest (callCode ctx g ++ rs.map .push) := by
  have hmild : ∀ i ∈ rs.map Instr.push, mild i = true := by
    intro i hi
    obtain ⟨r, -, rfl⟩ := List.mem_map.mp hi
    rfl
  rw [callCode] at h ⊢
  cases hgot : ctx.got[g]? with
  | some l =>
      refine ⟨isChain_pushes rfl, fun i hi => ?_, List.forall_mem_cons.mpr ⟨rfl, hmild⟩⟩
      cases hi
      exact fun _ => trivial
  | none =>
      cases hils : ctx.ils[g]? with
      | none => simp [hgot, hils] at h
      | some l =>
          refine ⟨.cons_cons trivial (isChain_pushes rfl), fun i hi => ?_,
            List.forall_mem_cons.mpr ⟨rfl, List.forall_mem_cons.mpr ⟨rfl, hmild⟩⟩⟩
          cases hi
          exact fun _ => trivial

/-- Arguments are not passed in `rbp`. -/
theorem ne_rbp_of_mem_integerOrder {r : Reg} (h : r ∈ integerOrder) : r ≠ .rbp := by
  revert r
  decide

/-- The code of one operator. -/
theorem modest_handleInstruction {ctx : Context} {locals : List ℕ} {op : Operator}
    {code : List Instr} (hop : integral op = true) (hcall : ∀ g, op = .call g → callCode ctx g ≠ [])
    (h : handleInstruction ctx locals op = .ok code) : Modest code := by
  have hleads : ∀ {i : Instr} {is : List Instr}, (∀ j, Beside j i) →
      ∀ k ∈ (i :: is).head?, ∀ j, Beside j k := by
    intro i is hi k hk
    cases hk
    exact hi
  cases op with
  | i64Const v =>
      cases h
      exact ⟨.cons_cons (.inl rfl) (.singleton _), hleads fun _ => trivial, by simp [mild]⟩
  | i64Add =>
      cases h
      exact ⟨.cons_cons trivial (.cons_cons trivial (.cons_cons (.inl rfl) (.singleton _))),
        hleads fun _ => trivial, by simp [mild]⟩
  | i64Sub =>
      cases h
      exact ⟨.cons_cons trivial (.cons_cons trivial (.cons_cons (.inl rfl) (.singleton _))),
        hleads fun _ => trivial, by simp [mild]⟩
  | nop =>
      cases h
      exact ⟨.singleton _, hleads fun _ => trivial, by simp [mild]⟩
  | «end» =>
      cases h
      exact ⟨.nil, by simp, by simp⟩
  | localGet k =>
      rw [handleInstruction] at h
      split at h
      · cases h
        exact ⟨.cons_cons (.inl rfl) (.singleton _), hleads fun _ => trivial, by simp [mild]⟩
      · cases h
  | localSet k =>
      rw [handleInstruction] at h
      split at h
      · cases h
        exact ⟨.cons_cons trivial (.singleton _), hleads fun _ => trivial, by simp [mild]⟩
      · cases h
  | call g =>
      simp only [handleInstruction, Outcome.bind_eq_ok, Outcome.unwrap_eq_ok, Outcome.pure_eq_ok,
        Outcome.ok.injEq] at h
      obtain ⟨ty, -, order, horder, args, hargs, results, hresults, rfl⟩ := h
      obtain ⟨-, rfl⟩ := drainTo_eq_ok.mp horder
      obtain ⟨rs, rfl, -, hrs⟩ := popArgs_eq_ok hargs
      rw [moveResults_eq_ok hresults, List.append_assoc]
      refine (modest_pops fun r hr => ?_).append (modest_callCode (hcall g rfl) _)
      exact ne_rbp_of_mem_integerOrder (List.mem_of_mem_take (hrs r hr))
  | i32Add => cases hop
  | i32Sub => cases hop
  | unimplemented b => cases hop

/-- So is that of a sequence. -/
theorem modest_handleInstructions {ctx : Context} {locals : List ℕ} {ops : List Operator}
    {code : List Instr} (hops : ∀ op ∈ ops, integral op = true)
    (hcalls : ∀ g, .call g ∈ ops → callCode ctx g ≠ [])
    (h : handleInstructions ctx locals ops = .ok code) : Modest code := by
  induction ops generalizing code with
  | nil =>
      cases h
      exact ⟨.nil, by simp, by simp⟩
  | cons op ops ih =>
      obtain ⟨c, r, hc, hr, rfl⟩ := handleInstructions_cons.mp h
      rw [List.forall_mem_cons] at hops
      refine (modest_handleInstruction hops.1 (fun g hg => ?_) hc).append
        (ih hops.2 (fun g hg => hcalls g (List.mem_cons_of_mem _ hg)) hr)
      exact hcalls g (hg ▸ List.mem_cons_self)

/-- Pops in front of code that may stand behind mild instructions. -/
theorem isChain_pops_append {rs : List Reg} {js : List Instr} (hrs : ∀ r ∈ rs, r ≠ .rbp)
    (hjs : ∀ i, mild i = true → (i :: js).IsChain Beside) (hi : mild i = true ∨ rs ≠ []) :
    (i :: (rs.map .pop ++ js)).IsChain Beside := by
  induction rs generalizing i with
  | nil => exact hjs i (hi.resolve_right fun hne => hne rfl)
  | cons r rs ih =>
      rw [List.forall_mem_cons] at hrs
      exact .cons_cons trivial (ih hrs.2 (.inl (decide_eq_true hrs.1)))

/-- The epilogue stands behind mild instructions, and if there are results behind
any. -/
theorem isChain_epilogue {returns : List Ty} {size : ℕ} {after : List Instr}
    (h : epilogue returns size = .ok after) (hi : mild i = true ∨ returns ≠ []) :
    (i :: after).IsChain Beside := by
  simp only [epilogue, Outcome.bind_eq_ok, Outcome.pure_eq_ok, Outcome.ok.injEq] at h
  obtain ⟨results, hresults, free, hfree, rfl⟩ := h
  obtain ⟨-, rfl⟩ := moveStack_eq_ok hfree
  have hreset : ∀ i, mild i = true →
      ([i, .mov .rsp .rbp, .pop .rbp, .ret] : List Instr).IsChain Beside := by
    intro i hi
    refine .cons_cons ⟨by decide, ?_, ?_⟩ (.cons_cons trivial (.cons_cons trivial (.singleton _)))
    · rintro c d rfl
      cases hi
    · rintro rfl
      cases hi
  rw [moveResults_eq_ok hresults, List.append_assoc]
  refine isChain_pops_append (fun r hr => ?_) (fun i hi => ?_) (hi.imp_right fun hne => ?_)
  · exact (Reg.general_iff.mp (general_of_mem_returnOrder (List.mem_of_mem_take hr))).2
  · split_ifs
    · exact hreset i hi
    · exact .cons_cons trivial (hreset _ rfl)
  · cases returns with
    | nil => exact absurd rfl hne
    | cons r returns => simp [returnOrder]

/-- An epilogue does not allocate, -/
theorem subRsp_not_mem_epilogue {returns : List Ty} {size : ℕ} {after : List Instr}
    (h : epilogue returns size = .ok after) (n : ℕ) : .subRsp n ∉ after := by
  simp only [epilogue, Outcome.bind_eq_ok, Outcome.pure_eq_ok, Outcome.ok.injEq] at h
  obtain ⟨results, hresults, free, hfree, rfl⟩ := h
  obtain ⟨-, rfl⟩ := moveStack_eq_ok hfree
  rw [moveResults_eq_ok hresults, List.mem_append, List.mem_append, not_or, not_or]
  refine ⟨⟨fun hn => ?_, ?_⟩, by simp⟩
  · obtain ⟨r, -, hr⟩ := List.mem_map.mp hn
    cases hr
  · split_ifs <;> simp

/-- The code of operators and the epilogue. -/
theorem Modest.isChain_epilogue {returns : List Ty} {size : ℕ} {code after : List Instr}
    (hcode : Modest code) (h : epilogue returns size = .ok after)
    (hi : mild i = true ∨ returns ≠ [] ∨ code ≠ []) : (i :: (code ++ after)).IsChain Beside := by
  cases hlast : code.getLast? with
  | none =>
      rw [List.getLast?_eq_none_iff] at hlast
      subst hlast
      refine Parawasm.isChain_epilogue h (hi.imp_right fun hne => ?_)
      exact hne.resolve_right fun h => h rfl
  | some j =>
      have hne : code ≠ [] := by
        rintro rfl
        cases hlast
      have hmild := hcode.all j (List.mem_of_getLast? hlast)
      have hchain : (code ++ after).IsChain Beside := by
        refine hcode.chain.append (Parawasm.isChain_epilogue (i := j) h (.inl hmild)).tail ?_
        intro j' hj' k hk
        cases hlast.symm.trans hj'
        have := Parawasm.isChain_epilogue (i := j) h (.inl hmild)
        cases after with
        | nil => cases hk
        | cons k' after =>
            cases hk
            exact (List.isChain_cons_cons.mp this).1
      cases code with
      | nil => exact absurd rfl hne
      | cons k code => exact .cons_cons (hcode.leads k rfl i) hchain

/-- nor does the code of operators. -/
theorem Modest.subRsp_not_mem {code : List Instr} (h : Modest code) (n : ℕ) : .subRsp n ∉ code :=
  fun hn => absurd (h.all _ hn) (by simp [mild])

/-- The frame of a function with nothing to do is set up and torn down at once. -/
theorem simulates_nothing :
    Simulates P P' .entry .popped [.push .rbp, .mov .rbp .rsp, .mov .rsp .rbp, .pop .rbp] [] := by
  have hp : advances .entry [.push .rbp, .mov .rbp .rsp, .mov .rsp .rbp, .pop .rbp] =
      some .popped := rfl
  refine ⟨hp, by decide, by simp, ?_⟩
  intro f s s' t hin h ht
  refine ⟨s', rfl, ?_, sameAbove_of_mem rfl⟩
  obtain ⟨-, hspt, hrbpt⟩ := (inPhase_run hp hin ht).1
  obtain ⟨-, hsp, hrbp⟩ := hin
  rw [Program.run_cons, Option.bind_eq_some_iff] at ht
  obtain ⟨s₁, hs₁, ht⟩ := ht
  obtain ⟨-, -, -, hregs⟩ := State.push_spec hs₁
  have ht : (exec (.pop .rbp) ((s₁.set .rbp (s₁.regs .rsp)).set .rsp
      ((s₁.set .rbp (s₁.regs .rsp)).regs .rbp))).bind (P.run []) = some t := ht
  obtain ⟨s₂, hs₂, ht⟩ := Option.bind_eq_some_iff.mp ht
  cases ht
  obtain ⟨⟨v, s₃⟩, hpop, rfl⟩ := Option.map_eq_some_iff.mp hs₂
  obtain ⟨-, -, rfl⟩ := State.pop_spec hpop
  refine ⟨h.regs.trans (funext fun r => ?_), fun x hx hx' => ?_⟩
  · by_cases hrsp : r = .rsp
    · subst hrsp
      exact BitVec.eq_of_toNat_eq (hsp.trans hspt.symm)
    · by_cases hrbp' : r = .rbp
      · subst hrbp'
        exact hrbp.trans hrbpt.symm
      · rw [State.set_regs_of_ne _ _ hrbp', State.set_regs_of_ne _ _ hrsp,
          State.set_regs_of_ne _ _ hrsp, State.set_regs_of_ne _ _ hrbp', hregs r hrsp]
  · exact absurd (hspt ▸ hx) (Nat.not_le.mpr hx')

/-- The offsets of the params are those of all slots. -/
theorem frameOffsets_cover {n d : ℕ} (hd : 0 < d) (hle : d ≤ 8 * n) :
    ∃ off ∈ frameOffsets n 0, d ≤ off ∧ off < d + 8 := by
  refine ⟨8 * ((d - 1) / 8 + 1), ?_, by omega, by omega⟩
  rw [frameOffsets, List.range_zero, List.map_nil, List.append_nil, List.mem_map]
  exact ⟨(d - 1) / 8, List.mem_range.mpr (by omega), rfl⟩

/-- A prologue that allocates is left alone by the optimiser, and stores all it
allocates. -/
theorem simulates_prologue {params : List Ty} {order : List Reg} {before : List Instr}
    (hword : P'.word = P.word) (hp : AllI64 params) (hne : params ≠ [])
    (horder : drainTo params.length = .ok order)
    (h : prologue params order ⟨frameOffsets params.length 0, 8 * params.length⟩ = .ok before) :
    Simulates P P' .entry (.framed (8 * params.length) 0) before before ∧
      ∀ js, optimized (before ++ js) = before ++ optimized js := by
  obtain ⟨-, rfl⟩ := prologue_i64 hp horder h
  obtain ⟨hsix, rfl⟩ := drainTo_eq_ok.mp horder
  have hpos : 8 * params.length ≠ 0 := by
    have := List.length_pos_of_ne_nil hne
    omega
  rw [if_neg hpos, List.append_assoc, List.singleton_append]
  dsimp only
  have hlen : (frameOffsets params.length 0).length ≤
      (integerOrder.take params.length).reverse.length := by
    rw [List.length_reverse, length_take_integerOrder hsix]
    simp [frameOffsets]
  have hoffs : ∀ off ∈ frameOffsets params.length 0, 8 ≤ off ∧ off ≤ 8 * params.length := by
    intro off hoff
    rw [frameOffsets, List.range_zero, List.map_nil, List.append_nil, List.mem_map] at hoff
    obtain ⟨i, hi, rfl⟩ := hoff
    rw [List.mem_range] at hi
    omega
  have hsave : Simulates P P' .entry (.framed 0 0) [.push .rbp, .mov .rbp .rsp]
      [.push .rbp, .mov .rbp .rsp] := simulates_self hword rfl (by decide) (by simp)
  refine ⟨hsave.append (simulates_alloc hlen hoffs (fun d hd hle => frameOffsets_cover hd hle)
    (advances_stores hoffs _)), fun js => ?_⟩
  -- the pushes and moves in front of the allocation are no places for a rule
  have hstores : ∀ i ∈ List.zipWith Instr.store (frameOffsets params.length 0)
      (integerOrder.take params.length).reverse, stop i = true := by
    intro i hi
    rw [← List.map_uncurry_zip_eq_zipWith, List.mem_map] at hi
    obtain ⟨x, -, rfl⟩ := hi
    rfl
  have hfront : ∀ n, optimized [.push .rbp, .mov .rbp .rsp, .subRsp n] =
      [.push .rbp, .mov .rbp .rsp, .subRsp n] := fun n => optimized_of_fixed rfl
  have hsplit : ∀ ks : List Instr, [Instr.push .rbp, .mov .rbp .rsp] ++
      .subRsp (8 * params.length) :: ks =
        [.push .rbp, .mov .rbp .rsp, .subRsp (8 * params.length)] ++ ks := fun ks => rfl
  have hstops : Stops (List.zipWith Instr.store (frameOffsets params.length 0)
      (integerOrder.take params.length).reverse) :=
    fun i hi => hstores i (List.mem_of_getLast? hi)
  rw [hsplit, List.append_assoc, optimized_append _ (stops_of_getLast? rfl rfl), hfront,
    optimized_append _ hstops, optimized_of_stops hstores, List.append_assoc]

/-- **The optimised code of a body in the place of its code**, if it has no
declared locals and every function it calls is there. -/
theorem faithful_compileBody {V : Validator} {ctx : Context} {ty : FuncType} {φ : V.FuncSt}
    {body : FunctionBody} {out : List Instr × ℕ} (hword : P'.word = P.word)
    (hops : ∀ op ∈ body.operators.items, integral op = true)
    (hcalls : ∀ g, .call g ∈ body.operators.items → callCode ctx g ≠ [])
    (hlocals : localCount body.locals.items = 0) (h : compileBody V ctx ty φ body = .ok out)
    (hk : KeepsFrame ctx ty body) (rest rest' : List Instr) :
    Faithful P P' .entry (out.1 ++ rest) (optimized out.1 ++ rest') := by
  have hacc := compileBody_accepts h hk
  obtain ⟨order, t, before, code, after, horder, ht, hbefore, hcode, hafter, hout⟩ :=
    compileBody_eq_ok h
  obtain ⟨hp, hg, -⟩ := hk
  obtain rfl := eq_frame_of_layoutLocals hp hg ht
  rw [hlocals] at hbefore hcode hafter
  rw [hout] at hacc ⊢
  have hmodest := modest_handleInstructions hops hcalls hcode
  have hsub : ∀ n, .subRsp n ∉ code ++ after := fun n hn =>
    (List.mem_append.mp hn).elim (hmodest.subRsp_not_mem n) (subRsp_not_mem_epilogue hafter n)
  by_cases hne : ty.params = []
  · -- without params there is no allocation
    have hbefore' := (prologue_i64 hp horder hbefore).2
    obtain ⟨-, rfl⟩ := drainTo_eq_ok.mp horder
    rw [hne] at hbefore'
    obtain rfl : before = [.push .rbp, .mov .rbp .rsp] := hbefore'
    by_cases hempty : ty.returns = [] ∧ code = []
    · obtain ⟨hreturns, rfl⟩ := hempty
      rw [hne, hreturns] at hafter
      obtain rfl : [.mov .rsp .rbp, .pop .rbp, .ret] = after := Outcome.ok.inj hafter
      have hnothing : optimized [.push .rbp, .mov .rbp .rsp, .mov .rsp .rbp, .pop .rbp, .ret] =
          [.ret] := by decide +kernel
      change Faithful P P' .entry ([.push .rbp, .mov .rbp .rsp, .mov .rsp .rbp, .pop .rbp] ++
        .ret :: rest) (optimized [.push .rbp, .mov .rbp .rsp, .mov .rsp .rbp, .pop .rbp, .ret] ++
          rest')
      rw [hnothing]
      exact .ret simulates_nothing
    · have hchain := hmodest.isChain_epilogue (i := .mov .rbp .rsp) hafter
        (.inr (not_and_or.mp hempty))
      have htidy : Tidy ([.push .rbp, .mov .rbp .rsp] ++ code ++ after) :=
        .cons_cons (.inl rfl) (.cons_cons ⟨by decide, by simp, by simp⟩ hchain)
      refine htidy.faithful hword (fun n hn => ?_) hacc rest rest'
      rw [List.append_assoc, List.mem_append] at hn
      exact hn.elim (by simp) (hsub n)
  · obtain ⟨hsim, hopt⟩ := simulates_prologue (P := P) hword hp hne horder hbefore
    have htidy : Tidy (code ++ after) := hmodest.isChain_epilogue hafter (.inl rfl)
    rw [List.append_assoc] at hacc
    rw [accepts_of_advances hsim.advances] at hacc
    rw [List.append_assoc before, hopt, List.append_assoc, List.append_assoc before]
    exact Faithful.append hsim (htidy.faithful hword hsub hacc rest rest')

end ParaOS.Parawasm

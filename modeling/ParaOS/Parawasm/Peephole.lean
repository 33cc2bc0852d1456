import ParaOS.Parawasm.NormalForm
import ParaOS.X86.Likeness

/-!
# What the rules preserve

Two of the three rules of the optimiser are sound wherever they apply: a push and
a pop are a move, and a move of a register to itself does nothing.  The third
takes out `mov a, b; mov b, a`, and with it the assignment of `b` to `a`.

`collapse` is what the two sound rules make of a list, in one go with a stack.
Moves between different registers stay where they are in it, so a place where
the third rule applies in some pass is still to be seen (`HasSwap.collapse`), and
where there is none `optimize` returns `collapse`
(`optimized_eq_collapse_iff`).  For such lists `optimize` preserves the meaning
of a list on its own.

### What is load-bearing

**No opposite moves.**  `¬ HasSwap (collapse is)` is the exact condition for the
third rule not to be applied to two registers, in any pass
(`optimized_eq_collapse_iff`).  `optimize_changes_meaning` is the shortest list
where it is.

**No pop of the last word behind a pair.**  A push and a pop that become a move no
longer write the word below `rsp`.  That word is below `rsp` afterwards and not part
of what is compared, until a pop takes the last word of the address space and `rsp`
is `0`: then every address is at or above it, and the words differ.
`PairsStayBelow` asks for this behind a push and a pop that become a move, and of a
list without such a pair it asks nothing.

`Keeps` is the invariant that has both phases in it.  Until a pair has been removed
the two runs are in *the same* state, and where the stack pointer has gone does not
matter; from then on they are `Like` each other, and it does.
-/

namespace ParaOS.Parawasm

open Machine X86

/-! ## The sound rules

`Settles` is `Rewrites` without the third rule, except where it does what the second
does. -/

/-- `js` comes from `is` by sound rules applied at disjoint places. -/
inductive Settles : List Instr → List Instr → Prop where
  | nil : Settles [] []
  | keep (i : Instr) {is js : List Instr} : Settles is js → Settles (i :: is) (i :: js)
  | pushPop (a b : Reg) {is js : List Instr} : Settles is js →
      Settles (.push a :: .pop b :: is) (.mov b a :: js)
  | self (a : Reg) {is js : List Instr} : Settles is js → Settles (.mov a a :: is) js

/-- A move and the opposite one behind it, between two registers. -/
def HasSwap (is : List Instr) : Prop :=
  ∃ pre post a b, a ≠ b ∧ is = pre ++ .mov a b :: .mov b a :: post

/-- An instruction in front does not take opposite moves away. -/
theorem HasSwap.cons {is : List Instr} (h : HasSwap is) (i : Instr) : HasSwap (i :: is) := by
  obtain ⟨pre, post, a, b, hab, rfl⟩ := h
  exact ⟨i :: pre, post, a, b, hab, rfl⟩

/-- In a normal form there are none. -/
theorem Normal.not_hasSwap {is : List Instr} (h : Normal is) : ¬ HasSwap is := by
  rintro ⟨pre, post, a, b, -, rfl⟩
  exact h.swap pre.length a b (by simp) (by simp)

/-- A pass over a list without opposite moves applies sound rules only. -/
theorem settles_pass {is : List Instr} (h : ¬ HasSwap is) : Settles is (pass is) := by
  induction is using pass.induct with
  | case1 => exact .nil
  | case2 i hself =>
      obtain ⟨a, rfl⟩ := selfMove_eq_true hself
      rw [pass, if_pos hself]
      exact .self a .nil
  | case3 i hself =>
      rw [pass, if_neg hself]
      exact .keep i .nil
  | case4 i j rest new hnew ih =>
      simp only [pass, hnew]
      have hrest : Settles rest (pass rest) := ih fun hrest => h ((hrest.cons j).cons i)
      rcases pairRule_eq_some hnew with ⟨a, b, rfl, rfl, rfl⟩ | ⟨a, b, rfl, rfl, rfl⟩
      · exact .pushPop a b hrest
      · by_cases hab : a = b
        · subst hab
          exact .self a (.self a hrest)
        · exact absurd ⟨[], rest, a, b, hab, rfl⟩ h
  | case5 i j rest hnew hself ih =>
      obtain ⟨a, rfl⟩ := selfMove_eq_true hself
      simp only [pass, hnew, if_pos hself]
      exact .self a (ih fun hrest => h (hrest.cons _))
  | case6 i j rest hnew hself ih =>
      simp only [pass, hnew, if_neg hself]
      exact .keep i (ih fun hrest => h (hrest.cons _))

/-! ## Collapsing

The passes of the optimiser apply rules from left to right and start again;
`collapse` applies the two sound ones as soon as they can be.  That the two come to
the same is a matter of confluence, and is shown by what collapsing does not notice. -/

/-- One more instruction behind a collapsed list, which is given back to front. -/
def collapseStep (done : List Instr) : Instr → List Instr
  | .pop b =>
      match done with
      | .push a :: rest => if a = b then rest else .mov b a :: rest
      | _ => .pop b :: done
  | .mov a b => if a = b then done else .mov a b :: done
  | i => i :: done

/-- What is left of a list when pushes with the pops behind them have become
moves and moves of a register to itself are gone. -/
def collapse (is : List Instr) : List Instr := (is.foldl collapseStep []).reverse

/-- Collapsing does not notice a sound rule, -/
theorem Settles.foldl_collapseStep {is js : List Instr} (h : Settles is js) (done : List Instr) :
    is.foldl collapseStep done = js.foldl collapseStep done := by
  induction h generalizing done with
  | nil => rfl
  | keep i _ ih => exact ih _
  | pushPop a b _ ih =>
      have hstep : collapseStep (collapseStep done (.push a)) (.pop b) =
          collapseStep done (.mov b a) := by
        simp only [collapseStep, eq_comm]
      rw [List.foldl_cons, List.foldl_cons, List.foldl_cons, hstep]
      exact ih _
  | self a _ ih =>
      have hstep : collapseStep done (.mov a a) = done := by simp [collapseStep]
      rw [List.foldl_cons, hstep]
      exact ih _

/-- wherever it was applied. -/
theorem Settles.collapse {is js : List Instr} (h : Settles is js) :
    Parawasm.collapse is = Parawasm.collapse js := by
  rw [Parawasm.collapse, Parawasm.collapse, h.foldl_collapseStep]

/-- Nothing below a move is touched any more. -/
theorem collapseStep_append {a b : Reg} (done rest : List Instr) (i : Instr) :
    ∃ done', collapseStep (done ++ .mov a b :: rest) i = done' ++ .mov a b :: rest := by
  cases i with
  | pop c =>
      cases done with
      | nil => exact ⟨[.pop c], rfl⟩
      | cons j done =>
          cases j with
          | push d =>
              by_cases hdc : d = c
              · exact ⟨done, by simp [collapseStep, hdc]⟩
              · exact ⟨.mov c d :: done, by simp [collapseStep, hdc]⟩
          | _ => exact ⟨.pop c :: _ :: done, rfl⟩
  | mov c d =>
      by_cases hcd : c = d
      · exact ⟨done, by simp [collapseStep, hcd]⟩
      · exact ⟨.mov c d :: done, by simp [collapseStep, hcd]⟩
  | _ => exact ⟨_ :: done, rfl⟩

/-- Nor do instructions further behind. -/
theorem foldl_collapseStep_append {a b : Reg} (is done rest : List Instr) :
    ∃ done', is.foldl collapseStep (done ++ .mov a b :: rest) = done' ++ .mov a b :: rest := by
  induction is generalizing done with
  | nil => exact ⟨done, rfl⟩
  | cons i is ih =>
      obtain ⟨done', hdone'⟩ := collapseStep_append (a := a) (b := b) done rest i
      rw [List.foldl_cons, hdone']
      exact ih done'

/-- **Opposite moves stay.** -/
theorem HasSwap.collapse {is : List Instr} (h : HasSwap is) : HasSwap (Parawasm.collapse is) := by
  obtain ⟨pre, post, a, b, hab, rfl⟩ := h
  have hstep : (.mov a b :: .mov b a :: post : List Instr).foldl collapseStep
      (pre.foldl collapseStep []) =
      post.foldl collapseStep ([] ++ .mov b a :: .mov a b :: pre.foldl collapseStep []) := by
    simp [collapseStep, hab, Ne.symm hab]
  obtain ⟨done', hdone'⟩ := foldl_collapseStep_append (a := b) (b := a) post []
    (.mov a b :: pre.foldl collapseStep [])
  refine ⟨(pre.foldl collapseStep []).reverse, done'.reverse, a, b, hab, ?_⟩
  rw [Parawasm.collapse, List.foldl_append, hstep, hdone']
  simp

/-- A normal list is collapsed. -/
theorem Normal.foldl_collapseStep (done : List Instr) {is : List Instr} (h : Normal (done ++ is)) :
    is.foldl collapseStep done.reverse = (done ++ is).reverse := by
  induction is generalizing done with
  | nil => simp
  | cons i is ih =>
      have hstep : collapseStep done.reverse i = (done ++ [i]).reverse := by
        cases i with
        | pop b =>
            cases hlast : done.reverse with
            | nil => simp [collapseStep, hlast]
            | cons j rest =>
                obtain rfl : done = rest.reverse ++ [j] := by
                  rw [← List.reverse_reverse done, hlast, List.reverse_cons]
                cases j with
                | push a => exact absurd (by simp) (h.pushPop rest.length a b (by simp))
                | _ => simp [collapseStep]
        | mov a b =>
            have hab : a ≠ b := by
              rintro rfl
              exact h.self a (by simp)
            simp [collapseStep, hab]
        | _ => simp [collapseStep]
      rw [List.foldl_cons, hstep, ih (done ++ [i]) (by simpa using h)]
      simp

/-- So collapsing changes no normal list. -/
theorem Normal.collapse {is : List Instr} (h : Normal is) : Parawasm.collapse is = is := by
  rw [Parawasm.collapse, ← List.reverse_nil, Normal.foldl_collapseStep [] h]
  simp

/-- Optimised code has been collapsed, if no opposite moves come up. -/
theorem collapse_optimized {is : List Instr} (h : ¬ HasSwap (collapse is)) :
    collapse (optimized is) = collapse is := by
  refine optimized_induction (p := fun js => collapse js = collapse is) (fun js hjs => ?_) rfl
  have hno : ¬ HasSwap js := fun hjs' => h (hjs ▸ hjs'.collapse)
  rw [← (settles_pass hno).collapse, hjs]

/-- The optimiser returns a normal form. -/
theorem normal_optimized (is : List Instr) : Normal (optimized is) :=
  pass_eq_self_iff.mp (pass_optimized is)

/-- **The third rule is applied to two registers exactly when collapsing leaves
opposite moves.** -/
theorem optimized_eq_collapse_iff {is : List Instr} :
    optimized is = collapse is ↔ ¬ HasSwap (collapse is) := by
  constructor
  · intro h
    rw [← h]
    exact (normal_optimized is).not_hasSwap
  · intro h
    rw [← collapse_optimized h, (normal_optimized is).collapse]

/-! ## Meaning

The list is run on its own here, in any state, and not as part of an activation. -/

/-- The instructions the rules are about, on registers other than `rsp`, and the
arithmetic between them. -/
def simple : Instr → Bool
  | .push r => r ≠ .rsp
  | .pop r => r ≠ .rsp
  | .mov a b => a ≠ .rsp ∧ b ≠ .rsp
  | .add a b => a ≠ .rsp ∧ b ≠ .rsp
  | .sub a b => a ≠ .rsp ∧ b ≠ .rsp
  | _ => false

/-- The stack pointer after an instruction. -/
def stackStep (sp : ℕ) : Instr → ℕ
  | .push _ => sp - 8
  | .pop _ => (sp + 8) % 2 ^ 64
  | _ => sp

/-- The stack pointer after instructions. -/
def stackAfter (sp : ℕ) (is : List Instr) : ℕ := is.foldl stackStep sp

/-- One instruction more. -/
theorem stackAfter_concat (sp : ℕ) (is : List Instr) (i : Instr) :
    stackAfter sp (is ++ [i]) = stackStep (stackAfter sp is) i := by
  rw [stackAfter, List.foldl_append]
  rfl

/-- From this stack pointer on, no pop takes the last word of the address space,
behind which `rsp` is `0`. -/
def StaysBelow : ℕ → List Instr → Prop
  | _, [] => True
  | sp, i :: is =>
      match i with
      | .push _ => StaysBelow (sp - 8) is
      | .pop _ => sp + 8 < 2 ^ 64 ∧ StaysBelow (sp + 8) is
      | _ => StaysBelow sp is

/-- Behind a push and a pop that become a move, no pop takes the last word: where
`rsp` is `0` the word that is no longer pushed is above it.  Nothing is asked of a
list in which no push and pop become a move, and nothing of the pops in front. -/
def PairsStayBelow (sp : ℕ) (is : List Instr) : Prop :=
  ∀ pre mid post a b, is = pre ++ .push a :: mid ++ .pop b :: post →
    (∀ i ∈ mid, selfMove i = true) →
    StaysBelow (stackAfter sp (pre ++ .push a :: mid ++ [.pop b])) post

/-- Behind a front of the list, from where the stack pointer is there. -/
theorem StaysBelow.append {sp : ℕ} {is js : List Instr} (h : StaysBelow sp (is ++ js)) :
    StaysBelow (stackAfter sp is) js := by
  induction is generalizing sp with
  | nil => exact h
  | cons i is ih =>
      cases i with
      | pop r =>
          refine (congrArg (StaysBelow · js) (congrArg (stackAfter · is) ?_)).mpr (ih h.2)
          exact Nat.mod_eq_of_lt h.1
      | _ => exact ih h

/-- It is enough if no pop at all takes the last word. -/
theorem StaysBelow.pairs {sp : ℕ} {is : List Instr} (h : StaysBelow sp is) :
    PairsStayBelow sp is := by
  rintro pre mid post a b rfl -
  exact StaysBelow.append (by simpa using h)

/-- The second list ends with the registers of the first and with the same memory
at and above `rsp`, wherever the first comes to its end. -/
def SameMeaning (is js : List Instr) (s : State) : Prop :=
  ∀ t, execList is s = some t → ∃ t', execList js s = some t' ∧ t'.regs = t.regs ∧
    ∀ x, t.sp ≤ x → t'.mem x = t.mem x

variable {i : Instr} {is js : List Instr} {s s' t : State}

/-- Behind the first instruction. -/
theorem StaysBelow.tail (h : StaysBelow s.sp (i :: is)) (hi : simple i = true)
    (hs : exec i s = some t) : StaysBelow t.sp is := by
  have hset : ∀ {r : Reg} {v : Word}, r ≠ .rsp → StaysBelow s.sp is →
      StaysBelow (s.set r v).sp is := by
    intro r v hr h
    rwa [State.set_sp _ _ hr.symm]
  cases i with
  | push r =>
      rw [(State.push_spec hs).2.1]
      exact h
  | pop r =>
      obtain ⟨⟨v, s₁⟩, hpop, rfl⟩ := Option.map_eq_some_iff.mp hs
      obtain ⟨-, -, rfl⟩ := State.pop_spec hpop
      have hr : r ≠ .rsp := by simpa [simple] using hi
      rw [State.set_sp _ _ hr.symm]
      have := s.sp_set_add h.1
      rw [show s.regs .rsp + 8 = s.regs .rsp + BitVec.ofNat 64 8 from rfl, this]
      exact h.2
  | mov a b =>
      cases hs
      exact hset (of_decide_eq_true hi).1 h
  | add a b =>
      cases hs
      exact hset (of_decide_eq_true hi).1 h
  | sub a b =>
      cases hs
      exact hset (of_decide_eq_true hi).1 h
  | _ => cases hi

/-- One instruction in two states that are alike. -/
theorem like_exec (h : Like Set.univ s s') (hi : simple i = true)
    (hbelow : StaysBelow s.sp (i :: is)) (hs : exec i s = some t) :
    ∃ t', exec i s' = some t' ∧ Like Set.univ t t' := by
  have hset : ∀ {r : Reg} {v v' : Word}, r ≠ .rsp → v' = v →
      Like Set.univ (s.set r v) (s'.set r v') := by
    rintro r v _ hr rfl
    exact h.set _ hr
  cases i with
  | push r =>
      rw [exec] at hs ⊢
      rw [h.regs]
      exact h.push hs
  | pop r =>
      obtain ⟨⟨v, s₁⟩, hpop, rfl⟩ := Option.map_eq_some_iff.mp hs
      obtain ⟨s₁', hpop', hlike⟩ := h.pop (fun _ _ _ => trivial) hbelow.1 hpop
      refine ⟨s₁'.set r v, ?_, hlike.set v (by simpa [simple] using hi)⟩
      rw [exec, hpop']
      rfl
  | mov a b =>
      cases hs
      exact ⟨_, rfl, hset (of_decide_eq_true hi).1 (by rw [h.regs])⟩
  | add a b =>
      cases hs
      exact ⟨_, rfl, hset (of_decide_eq_true hi).1 (by rw [h.regs])⟩
  | sub a b =>
      cases hs
      exact ⟨_, rfl, hset (of_decide_eq_true hi).1 (by rw [h.regs])⟩
  | _ => cases hi

/-- Where the stack pointer is after an instruction. -/
theorem sp_of_exec (hi : simple i = true) (hs : exec i s = some t) : t.sp = stackStep s.sp i := by
  cases i with
  | push r => exact (State.push_spec hs).2.1
  | pop r =>
      obtain ⟨⟨v, s₁⟩, hpop, rfl⟩ := Option.map_eq_some_iff.mp hs
      obtain ⟨-, -, rfl⟩ := State.pop_spec hpop
      have hr : r ≠ .rsp := by simpa [simple] using hi
      rw [State.set_sp _ _ hr.symm]
      simp [State.sp, stackStep, BitVec.toNat_add]
  | mov a b =>
      cases hs
      exact State.set_sp _ _ (of_decide_eq_true hi).1.symm
  | add a b =>
      cases hs
      exact State.set_sp _ _ (of_decide_eq_true hi).1.symm
  | sub a b =>
      cases hs
      exact State.set_sp _ _ (of_decide_eq_true hi).1.symm
  | _ => cases hi

/-- A move of a register to itself does nothing. -/
theorem exec_selfMove (hi : selfMove i = true) (s : State) : exec i s = some s := by
  obtain ⟨a, rfl⟩ := selfMove_eq_true hi
  rw [exec, State.set, Function.update_eq_self]

/-- What collapsing does with one more instruction. -/
theorem collapseStep_cases (done : List Instr) (i : Instr) :
    (∃ a b rest, done = .push a :: rest ∧ i = .pop b ∧
      ∀ s, execList (collapseStep done i).reverse s = execList (rest.reverse ++ [.mov b a]) s) ∨
    (selfMove i = true ∧ collapseStep done i = done) ∨
    (selfMove i = false ∧ collapseStep done i = i :: done) := by
  cases i with
  | pop b =>
      cases done with
      | nil => exact .inr (.inr ⟨rfl, rfl⟩)
      | cons j rest =>
          cases j with
          | push a =>
              refine .inl ⟨a, b, rest, rfl, rfl, fun s => ?_⟩
              by_cases hab : a = b
              · subst hab
                rw [collapseStep, if_pos rfl, execList_append]
                cases execList rest.reverse s with
                | none => rfl
                | some t => simp [exec_selfMove (i := .mov a a) (decide_eq_true rfl)]
              · rw [collapseStep, if_neg hab, List.reverse_cons]
          | _ => exact .inr (.inr ⟨rfl, rfl⟩)
  | mov a b =>
      by_cases hab : a = b
      · exact .inr (.inl ⟨decide_eq_true hab, if_pos hab⟩)
      · exact .inr (.inr ⟨decide_eq_false hab, if_neg hab⟩)
  | _ => exact .inr (.inr ⟨rfl, rfl⟩)

/-- A list run as far as `pre`, into `s`, and what is left of `pre` run as far, into
`s'`.  Until the first push and pop have become a move nothing is left out but moves
of a register to itself; from then on the states are alike. -/
inductive Keeps (s₀ : State) (pre done : List Instr) (s s' : State) (rest : List Instr) : Prop where
  | same : done.reverse = pre.filter (fun i => !selfMove i) → s = s' →
      s.sp = stackAfter s₀.sp pre → PairsStayBelow s₀.sp (pre ++ rest) → Keeps s₀ pre done s s' rest
  | like : Like Set.univ s s' → StaysBelow s.sp rest → Keeps s₀ pre done s s' rest

/-- A last push of a list without moves of registers to themselves. -/
theorem exists_push_of_filter {pre done : List Instr} {a : Reg}
    (h : (Instr.push a :: done).reverse = pre.filter fun i => !selfMove i) :
    ∃ pre' mid, pre = pre' ++ .push a :: mid ∧ ∀ i ∈ mid, selfMove i = true := by
  induction pre using List.reverseRecOn with
  | nil => simp at h
  | append_singleton pre i ih =>
      rw [List.filter_append] at h
      cases hi : selfMove i with
      | true =>
          obtain ⟨pre', mid, rfl, hmid⟩ := ih (by simpa [hi] using h)
          refine ⟨pre', mid ++ [i], by simp, fun j hj => ?_⟩
          rcases List.mem_append.mp hj with hj | hj
          · exact hmid j hj
          · rw [List.mem_singleton.mp hj, hi]
      | false =>
          have hlast : [Instr.push a] = [i] := by
            rw [List.reverse_cons] at h
            rw [List.filter_cons_of_pos (by simp [hi]), List.filter_nil] at h
            exact (List.append_inj' h rfl).2
          cases hlast
          exact ⟨pre, [], rfl, by simp⟩

/-- One more instruction. -/
theorem Keeps.step {s₀ s₁ : State} {pre done rest : List Instr}
    (h : Keeps s₀ pre done s s' (i :: rest)) (hi : simple i = true)
    (hdone : execList done.reverse s₀ = some s') (hs : exec i s = some s₁) :
    ∃ s₁', execList (collapseStep done i).reverse s₀ = some s₁' ∧
      Keeps s₀ (pre ++ [i]) (collapseStep done i) s₁ s₁' rest := by
  have hpre : pre ++ i :: rest = pre ++ [i] ++ rest := by simp
  rcases collapseStep_cases done i with ⟨a, b, d, rfl, rfl, hmove⟩ | ⟨hself, hd⟩ | ⟨hno, hd⟩
  · -- the push is the last thing that was done, so it is still to be seen what it pushed
    rw [List.reverse_cons, execList_append, Option.bind_eq_some_iff] at hdone
    obtain ⟨r, hr, hpush⟩ := hdone
    rw [execList_singleton] at hpush
    have hb : b ≠ .rsp := by simpa [simple] using hi
    refine ⟨r.set b (r.regs a), ?_, ?_⟩
    · rw [hmove, execList_append, hr, Option.bind_some, execList_singleton]
      rfl
    · cases h with
      | same hfilter heq hsp hbelow =>
          subst heq
          obtain ⟨pre', mid, rfl, hmid⟩ := exists_push_of_filter hfilter
          refine .like ((Like.refl _ r).push_pop hb hpush hs) ?_
          have hsp₁ : s₁.sp = stackAfter s₀.sp (pre' ++ .push a :: mid ++ [.pop b]) := by
            rw [sp_of_exec hi hs, hsp, stackAfter_concat]
          rw [hsp₁]
          exact hbelow pre' mid rest a b rfl hmid
      | like hlike hbelow =>
          obtain ⟨t', ht', hlike'⟩ := like_exec hlike hi hbelow hs
          exact .like (hlike'.trans ((Like.refl _ r).push_pop hb hpush ht')) (hbelow.tail hi hs)
  · rw [exec_selfMove hself] at hs
    cases hs
    refine ⟨s', by rw [hd, hdone], ?_⟩
    rw [hd]
    cases h with
    | same hfilter heq hsp hbelow =>
        refine .same (by simpa [hself] using hfilter) heq ?_ (hpre ▸ hbelow)
        rw [stackAfter_concat, ← hsp]
        obtain ⟨a, rfl⟩ := selfMove_eq_true hself
        rfl
    | like hlike hbelow => exact .like hlike (hbelow.tail hi (exec_selfMove hself _))
  · have hrun : ∀ {s₁'}, exec i s' = some s₁' →
        execList (collapseStep done i).reverse s₀ = some s₁' := by
      intro s₁' hs'
      rw [hd, List.reverse_cons, execList_append, hdone, Option.bind_some, execList_singleton, hs']
    cases h with
    | same hfilter heq hsp hbelow =>
        subst heq
        refine ⟨s₁, hrun hs, .same ?_ rfl ?_ (hpre ▸ hbelow)⟩
        · rw [hd, List.reverse_cons, hfilter]
          simp [hno]
        · rw [sp_of_exec hi hs, hsp, stackAfter_concat]
    | like hlike hbelow =>
        obtain ⟨s₁', hs₁', hlike'⟩ := like_exec hlike hi hbelow hs
        exact ⟨s₁', hrun hs₁', .like hlike' (hbelow.tail hi hs)⟩

/-- **Collapsing preserves meaning.** -/
theorem Keeps.execList {s₀ : State} {pre done rest : List Instr}
    (h : Keeps s₀ pre done s s' rest) (hsimple : ∀ i ∈ rest, simple i = true)
    (hdone : X86.execList done.reverse s₀ = some s') (hs : X86.execList rest s = some t) :
    ∃ t', X86.execList (rest.foldl collapseStep done).reverse s₀ = some t' ∧
      Like Set.univ t t' := by
  induction rest generalizing pre done s s' with
  | nil =>
      cases hs
      refine ⟨s', hdone, ?_⟩
      cases h with
      | same _ heq _ _ => exact heq ▸ Like.refl _ _
      | like hlike _ => exact hlike
  | cons i rest ih =>
      rw [List.forall_mem_cons] at hsimple
      rw [execList_cons, Option.bind_eq_some_iff] at hs
      obtain ⟨s₁, hs₁, hs⟩ := hs
      obtain ⟨s₁', hdone', hkeeps⟩ := h.step hsimple.1 hdone hs₁
      exact ih hkeeps hsimple.2 hdone' hs

/-- **Meaning is preserved where no opposite moves come up**: if the sound rules
leave no `mov a, b` directly before `mov b, a`, and `rsp` stays inside the address
space behind what they make of a push and a pop, `optimize` returns a list that ends
with the same registers and the same memory at and above `rsp`.

`PairsStayBelow` only asks something where a push and a pop have been removed, so a
list from which no pair goes is under no condition on `rsp`.  It asks that no pop
behind such a pair takes the last word: `rsp` is then `0`, and the word the pair has
written below the stack is above it, where the optimised list has not written it. -/
theorem optimize_preserves_meaning {is : List Instr} {s : State} (labels : List (ℕ × Label))
    (hsimple : ∀ i ∈ is, simple i = true) (hswap : ¬ HasSwap (collapse is))
    (hbelow : PairsStayBelow s.sp is) : SameMeaning is (optimize is labels).1 s := by
  rw [optimize_fst, optimized_eq_collapse_iff.mpr hswap]
  intro t hs
  have hkeeps : Keeps s [] [] s s is := .same rfl rfl rfl hbelow
  obtain ⟨t', ht', hlike⟩ := hkeeps.execList hsimple rfl hs
  exact ⟨t', ht', hlike.regs, fun x hx => hlike.mem x trivial hx⟩

/-- Two operands on their way from one register to another: the list becomes
`[mov rbx, rax; add rbx, rcx]`. -/
theorem optimize_preserves_meaning_instance :
    SameMeaning [.push .rax, .pop .rbx, .mov .rdx .rdx, .add .rbx .rcx]
      (optimize [.push .rax, .pop .rbx, .mov .rdx .rdx, .add .rbx .rcx] []).1
      (State.ofStack 64 64 [5]) := by
  refine optimize_preserves_meaning [] (by decide) ?_ (StaysBelow.pairs ⟨by decide, trivial⟩)
  rw [← optimized_eq_collapse_iff]
  decide +kernel

/-- `mov rax, rbx; mov rbx, rax` is not nothing: the list comes out empty, and `rax`
keeps what it had. -/
theorem optimize_changes_meaning : ¬ ∀ (is : List Instr) (s : State),
    (∀ i ∈ is, simple i = true) → SameMeaning is (optimize is []).1 s := by
  intro h
  obtain ⟨t', ht', hregs, -⟩ := h [.mov .rax .rbx, .mov .rbx .rax]
    ((State.ofStack 64 64 []).set .rbx 2) (by decide) _ rfl
  have hopt : (optimize [.mov .rax .rbx, .mov .rbx .rax] []).1 = [] := by decide +kernel
  rw [hopt] at ht'
  cases ht'
  exact absurd (congrFun hregs .rax) (by decide)

end ParaOS.Parawasm

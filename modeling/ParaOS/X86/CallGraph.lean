import Mathlib.Data.Set.Defs
import ParaOS.X86.Evaluation

/-!
# Calls that stand in code

Code without jumps executes every call that stands in it before the first `ret`
(`ComesTo`), so what a call can lead to is there to be read off the code.

* A call that returns has made all these calls, and they have returned before it:
  the calls below it are well-founded (`Eval.acc`), whatever outside code does.
* A call stays in the code its calls lead to.  `Program.restrict` makes a program
  forget where other labels stand; a call of code that only calls labels that are
  kept (`Program.ClosedUnder`) returns in the one program as in the other
  (`returns_restrict_iff`).

The second is what a condition on code is weakened by: it need not hold of a whole
program, but only of what a call can come to.  That a `ret` goes back to where its
call stands is a result (`Running.intact`) and itself rests on the discipline of the
code that is come to, so the restricted program has to be disciplined, and the run
is followed in both programs at once.

### What is load-bearing

`ComesTo` looks at what stands in front of the first `ret`, and this is exact for
code without jumps, in both directions: nothing behind it is executed, and
everything in front of it is, if the activation gets that far.

`Program.restrict` takes labels away and leaves the code where it is.  Indices,
addresses and lengths are the same in both programs, so a configuration of the one
is a configuration of the other, and no relation between states is needed.  A step
of the restricted program is one of the whole (`step_of_restrict`) without any
condition; the other direction is what `step_restrict` needs its invariant for.
-/

namespace ParaOS.X86

open Machine

variable {P : Program} {env : Env} {pc k k' : ℕ} {s t : State} {seg rest : List Instr}
  {i : Instr} {l : Label}

/-- The code at an index comes to a call of a label before it comes to a `ret`.
Whether the call is then made is another question: something in front of it may run
out of the stack, or may not return. -/
def ComesTo (P : Program) (pc : ℕ) (l : Label) : Prop :=
  ∃ seg rest, P.code.drop pc = seg ++ .callLabel l :: rest ∧ .ret ∉ seg

/-- The code at one index calls that at another.  It is the relation whose loops are
recursion. -/
def CalledFrom (P : Program) (k' k : ℕ) : Prop := ∃ l, ComesTo P k l ∧ P.target l = some k'

/-- A call is the first instruction that leaves straight-line code, or it comes
behind that. -/
theorem ComesTo.split (h : ComesTo P pc l) (hcode : P.code.drop pc = seg ++ i :: rest)
    (hseg : ∀ j ∈ seg, plain j = true) (hi : plain i = false) :
    i = .callLabel l ∨ i ≠ .ret ∧ ComesTo P (pc + seg.length + 1) l := by
  obtain ⟨seg', rest', hcode', hret⟩ := h
  have htail := (drop_of_split hcode).2
  rw [hcode, List.append_eq_append_iff] at hcode'
  rcases hcode' with ⟨mid, rfl, hmid⟩ | ⟨mid, rfl, hmid⟩
  · cases mid with
    | nil =>
        rw [List.nil_append] at hmid
        exact .inl (List.cons.inj hmid).1
    | cons j mid =>
        rw [List.cons_append] at hmid
        obtain ⟨rfl, rfl⟩ := List.cons.inj hmid
        refine .inr ⟨?_, mid, rest', htail, fun hmem => hret ?_⟩
        · rintro rfl
          exact hret (by simp)
        · exact List.mem_append_right _ (List.mem_cons_of_mem _ hmem)
  · cases mid with
    | nil =>
        rw [List.nil_append] at hmid
        exact .inl (List.cons.inj hmid).1.symm
    | cons j mid =>
        rw [List.cons_append] at hmid
        obtain ⟨rfl, -⟩ := List.cons.inj hmid
        have hplain := hseg (.callLabel l) (by simp)
        cases hplain

/-- **The calls of code that returns are well-founded.**  By induction over the
evaluation: the callees of a call that returned have returned before, and that is a
smaller evaluation.  Outside code does not come into it. -/
theorem Eval.acc {o : Option State} (h : Eval P env pc s o) (ho : o = some t)
    (hl : ComesTo P pc l) (hk : P.target l = some k) : Acc (CalledFrom P) k := by
  induction h generalizing t l k with
  | ret hcode hrun hpop =>
      rcases hl.split hcode (plain_of_run hrun) rfl with h | ⟨h, -⟩
      · cases h
      · exact absurd rfl h
  | stop => cases ho
  | call hcode hrun hk' hpush hcallee _ ihcallee ihrest =>
      rcases hl.split hcode (plain_of_run hrun) rfl with h | ⟨-, h⟩
      · cases h
        cases hk.symm.trans hk'
        refine ⟨_, ?_⟩
        rintro j ⟨l', hl', hj⟩
        exact ihcallee rfl hl' hj
      · exact ihrest ho h hk
  | callStop => cases ho
  | outside hcode hrun hpush hout _ ihrest =>
      rcases hl.split hcode (plain_of_run hrun) rfl with h | ⟨-, h⟩
      · cases h
      · exact ihrest ho h hk

/-- Read for a function: if a call of it has returned, no chain of calls from it
goes on for ever. -/
theorem Eval.acc_entry (h : Eval P env k s (some t)) : Acc (CalledFrom P) k := by
  refine ⟨k, ?_⟩
  rintro k' ⟨l, hl, hk'⟩
  exact h.acc rfl hl hk'

/-! ## The part of a program that calls lead to -/

variable {R : Set Label} {top : ℕ} {c c' : Cfg}

open Classical in
/-- A program in which only some labels lead anywhere.  A call of one of the others
has no step. -/
noncomputable def Program.restrict (P : Program) (R : Set Label) : Program :=
  { P with target := fun l => if l ∈ R then P.target l else none }

/-- Code that comes to calls of these labels only. -/
def Within (P : Program) (R : Set Label) (pc : ℕ) : Prop := ∀ l, ComesTo P pc l → l ∈ R

/-- Labels that stand before code that comes to calls of them only. -/
def Program.ClosedUnder (P : Program) (R : Set Label) : Prop :=
  ∀ l ∈ R, ∀ k, P.target l = some k → Within P R k

/-- Where labels lead that are kept. -/
theorem Program.target_restrict : (P.restrict R).target l = some k ↔ l ∈ R ∧ P.target l = some k :=
  Option.ite_none_right_eq_some

/-- A call that is next is one the code comes to. -/
theorem Within.mem (h : Within P R pc) (hi : P.code[pc]? = some (.callLabel l)) : l ∈ R :=
  h l ⟨[], P.code.drop (pc + 1), drop_eq_nil_append hi, by simp⟩

/-- The next instruction, if there is one. -/
theorem Within.next (h : Within P R pc) (hi : P.code[pc]? = some i) (hret : i ≠ .ret) :
    Within P R (pc + 1) := by
  rintro l ⟨seg, rest, hcode, hseg⟩
  refine h l ⟨i :: seg, rest, ?_, by simp [Ne.symm hret, hseg]⟩
  rw [drop_eq_nil_append hi, hcode]
  rfl

/-- The activations of a run go on in such code behind the calls they have made.  A
frame's return address is that of an instruction, and the code there is again within
the labels that are kept. -/
def ReturnsWithin (P : Program) (R : Set Label) : List Frame → Prop
  | [] => True
  | [_] => True
  | f :: g :: fs =>
      (∃ k i, f.ret = P.address k ∧ P.code[k]? = some i ∧ isData i = false ∧ Within P R k) ∧
        ReturnsWithin P R (g :: fs)

/-- **One step in both programs.** -/
theorem step_restrict (hR : P.ClosedUnder R) (hsep : P.Separate) {f : Frame} {fs : List Frame}
    {p : Phase} (hrun : Running (P.restrict R) top c f fs p) (hin : Within P R c.pc)
    (hframes : ReturnsWithin P R c.frames) (h : Step P env c c') :
    Step (P.restrict R) env c c' ∧ Within P R c'.pc ∧ ReturnsWithin P R c'.frames := by
  cases h with
  | @prim pc s s' fs' i hi hs =>
      refine ⟨.prim hi hs, hin.next hi ?_, hframes⟩
      rintro rfl
      cases hs
  | word hi => exact ⟨.word hi, hin.next hi (by simp), hframes⟩
  | @call pc k s s' fs' l hi hk hs =>
      have hl := hin.mem hi
      refine ⟨.call hi (Program.target_restrict.mpr ⟨hl, hk⟩) hs, hR l hl k hk, ?_⟩
      cases hrun.frames
      rcases hrun.exists_advance hi with ⟨hret, -⟩ | ⟨p', hp'⟩
      · cases hret
      · obtain ⟨j, hj, -, hdata⟩ := exists_of_accepts (hrun.accepts_next hi hp')
        exact ⟨⟨pc + 1, j, rfl, hj, hdata, hin.next hi (by simp)⟩, hframes⟩
  | outside hi hs hout => exact ⟨.outside hi hs hout, hin.next hi (by simp), hframes⟩
  | ret hi hs hk =>
      -- the `ret` goes back to its call, so to one of the places that are known
      obtain ⟨f', fs', hf', rfl, -⟩ := hrun.intact hi _ _ hs
      cases hf'
      obtain ⟨⟨k', i', hret, hi', hdata, hin'⟩, hframes⟩ := hframes
      refine ⟨.ret hi hs hk, ?_, hframes⟩
      rw [hret, hsep.indexAt hi' hdata] at hk
      cases hk
      exact hin'

/-- A run stays in the code its calls lead to. -/
theorem reach_restrict (hR : P.ClosedUnder R) (hP : (P.restrict R).Disciplined)
    (hsep : P.Separate) (henv : WellBehaved env top)
    (hk : accepts .entry (P.code.drop k) = true) (hin : Within P R k) (htop : s.sp + 8 ≤ top)
    (h : Reach P env (.call k s) c) :
    Reach (P.restrict R) env (.call k s) c ∧ Within P R c.pc ∧ ReturnsWithin P R c.frames := by
  induction h with
  | refl => exact ⟨.refl, hin, trivial⟩
  | tail _ hstep ih =>
      obtain ⟨hreach, hin, hframes⟩ := ih
      obtain ⟨f, fs, p, hrun⟩ := running_of_reach hP hsep henv hk htop hreach
      obtain ⟨hstep', hin', hframes'⟩ := step_restrict hR hsep hrun hin hframes hstep
      exact ⟨hreach.tail hstep', hin', hframes'⟩

/-- What is left of a program does what the program does. -/
theorem step_of_restrict (h : Step (P.restrict R) env c c') : Step P env c c' := by
  cases h with
  | prim hi hs => exact .prim hi hs
  | word hi => exact .word hi
  | call hi hk hs => exact .call hi (Program.target_restrict.mp hk).2 hs
  | outside hi hs hout => exact .outside hi hs hout
  | ret hi hs hk => exact .ret hi hs hk

/-- **A call needs only the code its calls lead to.**  What is asked of the program,
its discipline above all, is asked of the restricted one, so that code which no call
leads to may be anything. -/
theorem returns_restrict_iff (hR : P.ClosedUnder R) (hP : (P.restrict R).Disciplined)
    (hsep : P.Separate) (henv : WellBehaved env top)
    (hk : accepts .entry (P.code.drop k) = true) (hin : Within P R k) (htop : s.sp + 8 ≤ top) :
    Returns (P.restrict R) env k s t ↔ Returns P env k s t := by
  constructor
  · rintro ⟨c, w, hreach, h⟩
    exact ⟨c, w, Relation.ReflTransGen.mono (fun _ _ => step_of_restrict) _ _ hreach, h⟩
  · rintro ⟨c, w, hreach, h⟩
    exact ⟨c, w, (reach_restrict hR hP hsep henv hk hin htop hreach).1, h⟩

end ParaOS.X86

import Mathlib.Data.Finset.Insert
import Mathlib.Data.Finset.Lattice.Basic
import ParaOS.X86.Evaluation

/-!
# Two runs of one program

Code without branches takes the same way in every run.  What two runs have in
common at a point of it is therefore a matter of the code alone: `View` is a set
of registers and of slots of the frame that hold the same word in both, and
`View.Step` follows it through an instruction.  Whatever is on the operand stack
has to be the same in both, so only what is seen may be pushed, and only a slot
that is in view may be loaded.

Calls are described by signatures: the registers a callee reads and those it
gives results in.  `Eval.agree` is the main result: if every called label stands
before code that sees its results when it sees its arguments, two calls that
agree on the arguments and on `rsp` return the same results, whatever else is in
registers and memory.

The view has a register of its own for indirect calls, `r10`, and values are
pushed and moved only from `rax`.  With that no two opposite moves come up in
code that is in view.

### What is load-bearing

**Both runs are entered with the same `rsp`.**  Addresses of slots and operands are
then the same in both, and so is what room there is; without it one of them could
run out of the stack where the other does not.

**Nothing is asked of the memory below.**  A declared local that was never set is a
slot with whatever was left there, different in the two runs, and loading it is not
a step of a view.  That is the exact reason why `View.Step` keeps account of slots
that have been stored.

**Outside code** has to depend on its arguments only, and whether it returns may
depend on them and on `rsp` (`Env.Follows`).  It is asked of the imports that have a
signature, and a call of another is not in view.

### What is not asked

The two runs need not agree on return addresses above, on registers that are not
arguments, or on memory anywhere.  What they are shown to agree on behind the `ret`
are the result registers, and nothing else.
-/

namespace ParaOS.X86

open Machine

/-! ## Views -/

/-- The registers a function reads, and those it leaves results in.  They are
general: `rsp` and `rbp` are taken care of by the frame. -/
structure Signature where
  args : Finset Reg
  results : Finset Reg
  general : ∀ r ∈ args ∪ results, r.general = true

/-- Signatures for the labels of functions, and for the labels of words that are
the addresses of functions. -/
structure Signatures where
  functions : Label → Signature → Prop
  imports : Label → Signature → Prop

/-- What two runs have in common.  Operands are not listed in it, since all of them
are: only what is in view is ever pushed. -/
structure View where
  /-- registers that are the same -/
  seen : Finset Reg
  /-- offsets of slots that are the same -/
  slots : Finset ℕ
  /-- the label whose word is in `r10` -/
  callee : Option Label

/-- A register is the same in both runs from here on. -/
def View.learn (v : View) (r : Reg) : View := { v with seen := insert r v.seen }

/-- What is in view behind a call. -/
def View.after (v : View) (sig : Signature) : View := ⟨sig.results, v.slots, none⟩

/-- What is in view on entry. -/
def Signature.entry (sig : Signature) : View := ⟨sig.args, ∅, none⟩

/-- What is in view after an instruction.  Moves between `rsp` and `rbp` and what is
done to save `rbp` change nothing.  Behind a call only its results are in view, for
a callee may leave anything in the other registers. -/
def View.Step (S : Signatures) (v : View) : Instr → View → Prop
  | .nop, v' => v' = v
  | .push r, v' => (r = .rbp ∨ r = .rax ∧ .rax ∈ v.seen) ∧ v' = v
  | .pop r, v' => (r = .rbp ∧ v' = v) ∨ (r.general = true ∧ r ≠ .r10 ∧ v' = v.learn r)
  | .mov dst src, v' =>
      ((dst = src ∨ dst.general = false ∧ src.general = false) ∧ v' = v) ∨
        (dst.general = true ∧ dst ≠ .r10 ∧ src = .rax ∧ .rax ∈ v.seen ∧ v' = v.learn dst)
  | .subRsp _, v' => v' = v
  | .addRsp _, v' => v' = v
  | .store off r, v' => r ∈ v.seen ∧ v' = { v with slots := insert off v.slots }
  | .load r off, v' => off ∈ v.slots ∧ r ≠ .r10 ∧ v' = v.learn r
  | .movImm r _, v' => r ≠ .r10 ∧ v' = v.learn r
  | .movLabel r l, v' => r = .r10 ∧ v' = { v with callee := some l }
  | .add dst src, v' => dst ≠ .r10 ∧ dst ∈ v.seen ∧ src ∈ v.seen ∧ v' = v.learn dst
  | .sub dst src, v' => dst ≠ .r10 ∧ dst ∈ v.seen ∧ src ∈ v.seen ∧ v' = v.learn dst
  | .callLabel l, v' => ∃ sig, S.functions l sig ∧ sig.args ⊆ v.seen ∧ v' = v.after sig
  | .callReg r, v' => r = .r10 ∧ ∃ l ∈ v.callee, ∃ sig, S.imports l sig ∧ sig.args ⊆ v.seen ∧
      v' = v.after sig
  | _, _ => False

/-- What is in view after a list of instructions. -/
def View.Steps (S : Signatures) : View → List Instr → View → Prop
  | v, [], v' => v' = v
  | v, i :: is, v' => ∃ v₁, v.Step S i v₁ ∧ View.Steps S v₁ is v'

/-- The results are in view when a list comes to its `ret`.  It is decided by the
code alone, and what is behind that `ret` is not looked at. -/
def View.Shows (S : Signatures) (results : Finset Reg) : View → List Instr → Prop
  | _, [] => False
  | v, .ret :: _ => results ⊆ v.seen
  | v, i :: is => ∃ v', v.Step S i v' ∧ View.Shows S results v' is

variable {S : Signatures} {sig : Signature} {v v' v₁ : View} {i : Instr} {is js : List Instr}
  {results : Finset Reg}

/-- Nothing is learnt twice. -/
theorem View.learn_of_mem {r : Reg} (h : r ∈ v.seen) : v.learn r = v := by
  rw [learn, Finset.insert_eq_self.mpr h]

/-- Steps of two pieces of code are put together. -/
theorem View.steps_append (h : v.Steps S is v₁) (h' : v₁.Steps S js v') :
    v.Steps S (is ++ js) v' := by
  induction is generalizing v with
  | nil =>
      cases h
      exact h'
  | cons i is ih =>
      obtain ⟨v₂, hv₂, h⟩ := h
      exact ⟨v₂, hv₂, ih h⟩

theorem View.steps_singleton (h : v.Step S i v') : v.Steps S [i] v' := ⟨v', h, rfl⟩

/-- `ret` leads nowhere in an activation. -/
theorem View.not_step_ret : ¬ v.Step S .ret v' := id

/-- Code shows its results if after its first instruction the rest does. -/
theorem View.shows_cons (hi : i ≠ .ret) :
    v.Shows S results (i :: is) ↔ ∃ v', v.Step S i v' ∧ v'.Shows S results is := by
  rw [Shows]
  exact hi

/-- Code in front of code that shows its results. -/
theorem View.Steps.shows (h : v.Steps S is v') (h' : v'.Shows S results js) :
    v.Shows S results (is ++ js) := by
  induction is generalizing v with
  | nil =>
      cases h
      exact h'
  | cons i is ih =>
      obtain ⟨v₁, hv₁, h⟩ := h
      have hi : i ≠ .ret := by
        rintro rfl
        exact View.not_step_ret hv₁
      exact (View.shows_cons hi).mpr ⟨v₁, hv₁, ih h⟩

/-- What comes behind the `ret` does not matter. -/
theorem View.Shows.append (h : v.Shows S results is) : v.Shows S results (is ++ js) := by
  induction is generalizing v with
  | nil => cases h
  | cons i is ih =>
      by_cases hi : i = .ret
      · subst hi
        exact h
      · obtain ⟨v', hv', h⟩ := (View.shows_cons hi).mp h
        exact (View.shows_cons hi).mpr ⟨v', hv', ih h⟩

/-- Taking a list apart in front of its `ret`. -/
theorem View.Shows.split (his : .ret ∉ is) (h : v.Shows S results (is ++ js)) :
    ∃ v', v.Steps S is v' ∧ v'.Shows S results js := by
  induction is generalizing v with
  | nil => exact ⟨v, rfl, h⟩
  | cons i is ih =>
      rw [List.mem_cons, not_or] at his
      obtain ⟨v₁, hv₁, h⟩ := (View.shows_cons (Ne.symm his.1)).mp h
      obtain ⟨v', hv', h⟩ := ih his.2 h
      exact ⟨v', ⟨v₁, hv₁, hv'⟩, h⟩

/-! ## What a view means

The states of the two activations are compared where the view says so, and in the
operands.  Their frames may have different return addresses and different saved
`rbp`s. -/

/-- The offsets slots can have in a phase. -/
def Phase.Holds : Phase → ℕ → Prop
  | .entry, _ => False
  | .saved, _ => False
  | .framed a _, off => off ≤ a
  | _, _ => True

/-- The bytes that are in view: slots, and the operands below the allocated
space. -/
def Visible (top : ℕ) (slots : Finset ℕ) : Phase → ℕ → Prop
  | .framed a n, x => (∃ off ∈ slots, top ≤ x + off + 8 ∧ x + off < top) ∨
      (top ≤ x + (8 * n + a + 8) ∧ x + (a + 8) < top)
  | _, _ => False

/-- Two activations of the same code at the same point, which agree on what is in
view.  Each is in its phase, so that what is known of `rsp` and `rbp` is known of
both. -/
structure Together (P : Program) (f f' : Frame) (p : Phase) (v : View) (s s' : State) :
    Prop where
  left : InPhase f p s
  right : InPhase f' p s'
  rsp : f'.rsp = f.rsp
  general : ∀ r ∈ v.seen, r.general = true
  slots : ∀ off ∈ v.slots, p.Holds off
  regs : ∀ r ∈ v.seen, s'.regs r = s.regs r
  callee : ∀ l ∈ v.callee, s.regs .r10 = P.word l ∧ s'.regs .r10 = P.word l
  mem : ∀ x, Visible f.top v.slots p x → s'.mem x = s.mem x

variable {P : Program} {f f' : Frame} {p p' : Phase} {s s' t t' : State}

/-- Entered with the same `rsp`, they have their frames at the same place. -/
theorem Together.top (h : Together P f f' p v s s') : f'.top = f.top := by
  rw [Frame.top, Frame.top, h.rsp]

/-- The general registers are the same in a state as in another one. -/
def SameGeneral (s t : State) : Prop := ∀ r : Reg, r.general = true → t.regs r = s.regs r

theorem sameGeneral_set {r : Reg} {w : Word} (hr : r.general = false) :
    SameGeneral s (s.set r w) := by
  intro q hq
  refine State.set_regs_of_ne _ _ ?_
  rintro rfl
  rw [hq] at hr
  cases hr

/-- A step that changes no general register. -/
theorem Together.next (h : Together P f f' p v s s') (hleft : InPhase f p' t)
    (hright : InPhase f' p' t') (ht : SameGeneral s t) (ht' : SameGeneral s' t')
    (hslots : ∀ off ∈ v.slots, p.Holds off → p'.Holds off)
    (hmem : ∀ x, Visible f.top v.slots p' x → t'.mem x = t.mem x) :
    Together P f f' p' v t t' where
  left := hleft
  right := hright
  rsp := h.rsp
  general := h.general
  slots off hoff := hslots off hoff (h.slots off hoff)
  regs r hr := by rw [ht r (h.general r hr), ht' r (h.general r hr), h.regs r hr]
  callee l hl := by rw [ht _ rfl, ht' _ rfl]; exact h.callee l hl
  mem := hmem

/-- A register other than `r10` comes into view. -/
theorem Together.learn {r : Reg} {w w' : Word} (h : Together P f f' p v s s')
    (hleft : InPhase f p (s.set r w)) (hright : InPhase f' p (s'.set r w'))
    (hgen : r.general = true) (hr : r ≠ .r10) (hw : w' = w) :
    Together P f f' p (v.learn r) (s.set r w) (s'.set r w') where
  left := hleft
  right := hright
  rsp := h.rsp
  general := Finset.forall_mem_insert .. |>.mpr ⟨hgen, h.general⟩
  slots := h.slots
  regs := by
    intro q hq
    by_cases hqr : q = r
    · rw [hqr, State.set_regs_self, State.set_regs_self, hw]
    · rw [State.set_regs_of_ne _ _ hqr, State.set_regs_of_ne _ _ hqr]
      exact h.regs q (Finset.mem_of_mem_insert_of_ne hq hqr)
  callee l hl := by
    rw [State.set_regs_of_ne _ _ hr.symm, State.set_regs_of_ne _ _ hr.symm]
    exact h.callee l hl
  mem := h.mem

/-! ## One instruction

One lemma for each kind of instruction that touches more than one register.  In each
of them the phase says where the instruction reads and writes, and the view what is
the same there. -/

/-- What is pushed is in view, or it is `rbp`, which goes above the operands. -/
theorem Together.push {r : Reg} (hp : advance p (.push r) = some p') (hv : v.Step S (.push r) v')
    (h : Together P f f' p v s s') (hs : s.push (s.regs r) = some t)
    (hs' : s'.push (s'.regs r) = some t') : Together P f f' p' v' t t' := by
  obtain ⟨hr, rfl⟩ := hv
  obtain ⟨hroom, -, hmem, hregs⟩ := State.push_spec hs
  obtain ⟨hroom', -, hmem', hregs'⟩ := State.push_spec hs'
  have hnext := h.next (inPhase_push hp h.left hs).1 (inPhase_push hp h.right hs').1
    (fun q hq => hregs q (Reg.general_iff.mp hq).1) (fun q hq => hregs' q (Reg.general_iff.mp hq).1)
  rcases advance_push hp with ⟨rfl, rfl, rfl⟩ | ⟨a, n, rfl, hgen, rfl⟩
  · exact hnext (fun _ _ hoff => hoff) fun _ hx => hx.elim
  · obtain ⟨rfl, hrax⟩ : r = .rax ∧ .rax ∈ v'.seen := by
      rcases hr with rfl | hr
      · cases hgen
      · exact hr
    have hsp := h.left.2.2.2
    have hsp' := h.right.2.2.2
    rw [h.top] at hsp'
    refine hnext (fun _ _ hoff => hoff) fun x hx => ?_
    rw [hmem, hmem', h.regs _ hrax, show s'.sp = s.sp by omega]
    refine Mem.store_congr fun hne => h.mem x ?_
    rcases hx with hslot | ⟨hle, hlt⟩
    · exact .inl hslot
    · exact .inr ⟨by omega, hlt⟩

/-- An operand is the same in both, so the register it is popped into is in view
from then on. -/
theorem Together.pop {r : Reg} {w w' : Word} (hp : advance p (.pop r) = some p')
    (hv : v.Step S (.pop r) v') (h : Together P f f' p v s s') (hs : s.pop = some (w, t))
    (hs' : s'.pop = some (w', t')) : Together P f f' p' v' (t.set r w) (t'.set r w') := by
  have hleft := (inPhase_pop hp h.left hs).1
  have hright := (inPhase_pop hp h.right hs').1
  obtain ⟨-, rfl, rfl⟩ := State.pop_spec hs
  obtain ⟨-, rfl, rfl⟩ := State.pop_spec hs'
  have hsame : ∀ s : State, SameGeneral s (s.set .rsp (s.regs .rsp + 8)) :=
    fun s => sameGeneral_set rfl
  rcases advance_pop hp with ⟨-, rfl, rfl⟩ | ⟨a, n, rfl, hgen, rfl⟩
  · obtain rfl : v' = v := by
      rcases hv with ⟨-, rfl⟩ | ⟨hgen, -⟩
      · rfl
      · cases hgen
    refine h.next hleft hright ?_ ?_ (fun _ _ _ => trivial) fun _ hx => hx.elim
    · exact fun q hq => (sameGeneral_set rfl q hq).trans (hsame s q hq)
    · exact fun q hq => (sameGeneral_set rfl q hq).trans (hsame s' q hq)
  · obtain ⟨hr, rfl⟩ : r ≠ .r10 ∧ v' = v.learn r := by
      rcases hv with ⟨rfl, -⟩ | ⟨-, hv⟩
      · cases hgen
      · exact hv
    have hsp := h.left.2.2.2
    have hsp' := h.right.2.2.2
    rw [h.top] at hsp'
    refine (h.next (hleft.of_set hgen) (hright.of_set hgen) (hsame s) (hsame s')
      (fun _ _ hoff => hoff) fun x hx => h.mem x ?_).learn hleft hright hgen hr ?_
    · rcases hx with hslot | ⟨hle, hlt⟩
      · exact .inl hslot
      · exact .inr ⟨by omega, hlt⟩
    · rw [show s'.sp = s.sp by omega]
      exact Mem.load_congr fun x hx hx' => h.mem x (.inr ⟨by omega, by omega⟩)

/-- A move from `rax` brings its target into view; one between the pointers is not
seen at all. -/
theorem Together.mov {dst src : Reg} (hp : advance p (.mov dst src) = some p')
    (hv : v.Step S (.mov dst src) v') (h : Together P f f' p v s s') :
    Together P f f' p' v' (s.set dst (s.regs src)) (s'.set dst (s'.regs src)) := by
  have hleft := inPhase_mov hp h.left
  have hright := inPhase_mov hp h.right
  rcases hv with ⟨hregs, rfl⟩ | ⟨hgen, hdst, rfl, hrax, rfl⟩
  · by_cases heq : dst = src
    · subst heq
      rw [State.set, State.set, Function.update_eq_self, Function.update_eq_self]
      rw [advance_self] at hp
      cases hp
      exact h
    · have hgen : dst.general = false := (hregs.resolve_left heq).1
      have hnext := h.next hleft hright (sameGeneral_set hgen) (sameGeneral_set hgen)
      rcases advance_mov hp with ⟨rfl, -⟩ | ⟨rfl, -, -, rfl⟩ | ⟨-, -, -, rfl⟩ |
        ⟨-, -, -, ⟨hdst, -⟩, -⟩
      · exact absurd rfl heq
      · refine hnext (fun _ _ hoff => hoff.elim) fun x hx => ?_
        rcases hx with ⟨off, hoff, -⟩ | ⟨hle, hlt⟩
        · exact (h.slots off hoff).elim
        · omega
      · exact hnext (fun _ _ _ => trivial) fun _ hx => hx.elim
      · rw [hgen] at hdst
        cases hdst
  · obtain rfl : p' = p := by
      rcases advance_mov hp with ⟨-, rfl⟩ | ⟨-, rfl, -⟩ | ⟨-, rfl, -⟩ | ⟨-, -, -, -, rfl⟩
      · rfl
      · cases hgen
      · cases hgen
      · rfl
    exact h.learn hleft hright hgen hdst (h.regs _ hrax)

/-- A slot that is stored is in view from then on.  It may overlap slots that were
in view before, which are then the same in both runs as well, being overwritten with
the same bytes. -/
theorem Together.store {off : ℕ} {r : Reg} (hp : advance p (.store off r) = some p')
    (hv : v.Step S (.store off r) v') (h : Together P f f' p v s s')
    (hs : exec (.store off r) s = some t) (hs' : exec (.store off r) s' = some t') :
    Together P f f' p' v' t t' := by
  have hleft := (inPhase_exec hp h.left hs).1
  have hright := (inPhase_exec hp h.right hs').1
  obtain ⟨a, n, rfl, ⟨-, hoff⟩, rfl⟩ := advance_store hp
  obtain ⟨hr, rfl⟩ := hv
  have htop := f.top_lt
  obtain ⟨-, -, hbp, hsp⟩ := h.left
  obtain ⟨-, -, hbp', -⟩ := h.right
  rw [h.top] at hbp'
  rw [exec_store r (by omega) (by omega)] at hs hs'
  cases hs
  cases hs'
  refine ⟨hleft, hright, h.rsp, h.general, ?_, h.regs, h.callee, fun x hx => ?_⟩
  · exact Finset.forall_mem_insert .. |>.mpr ⟨hoff, h.slots⟩
  · rw [h.regs r hr, show s'.bp = s.bp by omega]
    refine Mem.store_congr fun hne => h.mem x ?_
    rcases hx with ⟨off', hoff', hle, hlt⟩ | hx
    · refine .inl ⟨off', Finset.mem_of_mem_insert_of_ne hoff' ?_, hle, hlt⟩
      rintro rfl
      omega
    · exact .inr hx

/-- Only a slot in view is loaded. -/
theorem Together.load {off : ℕ} {r : Reg} (hp : advance p (.load r off) = some p')
    (hv : v.Step S (.load r off) v') (h : Together P f f' p v s s')
    (hs : exec (.load r off) s = some t) (hs' : exec (.load r off) s' = some t') :
    Together P f f' p' v' t t' := by
  have hleft := (inPhase_exec hp h.left hs).1
  have hright := (inPhase_exec hp h.right hs').1
  obtain ⟨a, n, rfl, ⟨hgen, hoff⟩, rfl⟩ := advance_load hp
  obtain ⟨hslot, hr, rfl⟩ := hv
  have htop := f.top_lt
  obtain ⟨-, -, hbp, hsp⟩ := h.left
  obtain ⟨-, -, hbp', -⟩ := h.right
  rw [h.top] at hbp'
  rw [exec_load r (by omega) (by omega)] at hs hs'
  cases hs
  cases hs'
  refine h.learn hleft hright hgen hr ?_
  rw [show s'.bp = s.bp by omega]
  exact Mem.load_congr fun x hx hx' => h.mem x (.inl ⟨off, hslot, by omega, by omega⟩)

/-- **One instruction keeps two runs together.** -/
theorem Together.perform (hp : advance p i = some p') (hv : v.Step S i v')
    (h : Together P f f' p v s s') (hs : P.perform i s = some t) (hs' : P.perform i s' = some t') :
    Together P f f' p' v' t t' := by
  have hleft := (inPhase_perform hp h.left hs).1
  have hright := (inPhase_perform hp h.right hs').1
  have hset : ∀ {r : Reg} {w w' : Word}, writes p r = some p' → r ≠ .r10 → w' = w →
      t = s.set r w → t' = s'.set r w' → Together P f f' p' (v.learn r) t t' := by
    rintro r w w' hw hr heq rfl rfl
    obtain ⟨a, n, rfl, hgen, rfl⟩ := writes_eq_some hw
    exact h.learn hleft hright hgen hr heq
  cases i with
  | nop =>
      cases hp
      cases hv
      cases hs
      cases hs'
      exact h
  | push r => exact h.push hp hv hs hs'
  | pop r =>
      obtain ⟨⟨w, s₁⟩, hpop, rfl⟩ := Option.map_eq_some_iff.mp hs
      obtain ⟨⟨w', s₁'⟩, hpop', rfl⟩ := Option.map_eq_some_iff.mp hs'
      exact h.pop hp hv hpop hpop'
  | mov dst src =>
      cases hs
      cases hs'
      exact h.mov hp hv
  | store off r => exact h.store hp hv hs hs'
  | load r off => exact h.load hp hv hs hs'
  | movImm r w =>
      obtain ⟨hr, rfl⟩ := hv
      exact hset hp hr rfl (Option.some.inj hs).symm (Option.some.inj hs').symm
  | add dst src =>
      obtain ⟨hr, hdst, hsrc, rfl⟩ := hv
      exact hset hp hr (by rw [h.regs _ hdst, h.regs _ hsrc]) (Option.some.inj hs).symm
        (Option.some.inj hs').symm
  | sub dst src =>
      obtain ⟨hr, hdst, hsrc, rfl⟩ := hv
      exact hset hp hr (by rw [h.regs _ hdst, h.regs _ hsrc]) (Option.some.inj hs).symm
        (Option.some.inj hs').symm
  | movLabel r l =>
      obtain ⟨rfl, rfl⟩ := hv
      cases hs
      cases hs'
      obtain ⟨a, n, rfl, -, rfl⟩ := writes_eq_some hp
      refine ⟨hleft, hright, h.rsp, h.general, h.slots, fun q hq => ?_, ?_, h.mem⟩
      · by_cases hq10 : q = .r10
        · rw [hq10, State.set_regs_self, State.set_regs_self]
        · rw [State.set_regs_of_ne _ _ hq10, State.set_regs_of_ne _ _ hq10, h.regs q hq]
      · intro l' hl'
        obtain rfl : l = l' := Option.some.inj hl'
        exact ⟨State.set_regs_self _ _ _, State.set_regs_self _ _ _⟩
  | subRsp n =>
      obtain ⟨rfl, rfl⟩ := advance_subRsp hp
      cases hv
      simp only [Program.perform, exec, Option.ite_none_right_eq_some, Option.some.injEq] at hs hs'
      obtain ⟨-, rfl⟩ := hs
      obtain ⟨-, rfl⟩ := hs'
      refine h.next hleft hright (sameGeneral_set rfl) (sameGeneral_set rfl)
        (fun off _ hoff => le_trans hoff (Nat.zero_le n)) fun x hx => h.mem x ?_
      rcases hx with hslot | ⟨hle, hlt⟩
      · exact .inl hslot
      · omega
  | addRsp n =>
      obtain ⟨a, m, rfl, rfl⟩ := advance_addRsp hp
      cases hv
      cases hs
      cases hs'
      exact h.next hleft hright (sameGeneral_set rfl) (sameGeneral_set rfl)
        (fun _ _ _ => trivial) fun _ hx => hx.elim
  | callLabel l => cases hs
  | callReg r => cases hs
  | _ => cases hv

/-- A stretch of straight-line code, by induction over it. -/
theorem Together.run (hp : advances p is = some p') (hv : v.Steps S is v')
    (h : Together P f f' p v s s') (hs : P.run is s = some t) (hs' : P.run is s' = some t') :
    Together P f f' p' v' t t' := by
  induction is generalizing p v s s' with
  | nil =>
      cases hp
      cases hv
      cases hs
      cases hs'
      exact h
  | cons i is ih =>
      rw [advances, Option.bind_eq_some_iff] at hp
      obtain ⟨q, hq, hp⟩ := hp
      obtain ⟨v₁, hv₁, hv⟩ := hv
      rw [Program.run_cons, Option.bind_eq_some_iff] at hs hs'
      obtain ⟨s₁, hs₁, hs⟩ := hs
      obtain ⟨s₁', hs₁', hs'⟩ := hs'
      exact ih hp hv (h.perform hq hv₁ hs₁ hs₁') hs hs'

/-! ## Room on the stack

That one of the runs gets through does not yet say that the other does.  It does
because the only thing that stops an instruction in place is the room below `rsp`,
and `rsp` is the same. -/

/-- Where an instruction needs the stack, both runs have the same of it. -/
theorem Together.sp (hp : advance p i = some p') (hroom : 0 < room i)
    (h : Together P f f' p v s s') : s'.regs .rsp = s.regs .rsp := by
  have htop := h.top
  have hleft := h.left
  have hright := h.right
  apply BitVec.eq_of_toNat_eq
  change s'.sp = s.sp
  cases i with
  | push r =>
      rcases advance_push hp with ⟨rfl, -⟩ | ⟨a, n, rfl, -⟩
      · rw [hleft.2.1, hright.2.1, htop]
      · have := hleft.2.2.2
        have := hright.2.2.2
        omega
  | subRsp n =>
      obtain ⟨rfl, -⟩ := advance_subRsp hp
      have := hleft.2.2.2
      have := hright.2.2.2
      omega
  | callLabel l =>
      obtain ⟨a, n, rfl, -⟩ := advance_callLabel hp
      have := hleft.2.2.2
      have := hright.2.2.2
      omega
  | callReg r =>
      obtain ⟨a, n, rfl, -⟩ := advance_callReg hp
      have := hleft.2.2.2
      have := hright.2.2.2
      omega
  | _ => cases hroom

/-- Without room an instruction stops. -/
theorem perform_eq_none (h : s.sp < room i) : P.perform i s = none := by
  cases i with
  | push r => exact if_neg (Nat.not_le.mpr h)
  | subRsp n => exact if_neg (Nat.not_le.mpr h)
  | callLabel l => rfl
  | callReg r => rfl
  | _ => cases h

/-- If one of the runs performs an instruction, so does the other. -/
theorem Together.exists_perform (hp : advance p i = some p') (h : Together P f f' p v s s')
    (hs : P.perform i s = some t) : ∃ t', P.perform i s' = some t' := by
  cases hs' : P.perform i s' with
  | some t' => exact ⟨t', rfl⟩
  | none =>
      have hroom := room_of_perform hp h.right (plain_of_perform hs) hs'
      rw [State.sp, h.sp hp (Nat.zero_lt_of_lt hroom)] at hroom
      rw [perform_eq_none hroom] at hs
      cases hs

/-- The other run gets through as well. -/
theorem Together.exists_run (hp : advances p is = some p') (hv : v.Steps S is v')
    (h : Together P f f' p v s s') (hs : P.run is s = some t) : ∃ t', P.run is s' = some t' := by
  induction is generalizing p v s s' with
  | nil => exact ⟨s', rfl⟩
  | cons i is ih =>
      rw [advances, Option.bind_eq_some_iff] at hp
      obtain ⟨q, hq, hp⟩ := hp
      obtain ⟨v₁, hv₁, hv⟩ := hv
      rw [Program.run_cons, Option.bind_eq_some_iff] at hs
      obtain ⟨s₁, hs₁, hs⟩ := hs
      obtain ⟨s₁', hs₁'⟩ := h.exists_perform hq hs₁
      obtain ⟨t', ht'⟩ := ih hp hv (h.perform hq hv₁ hs₁ hs₁') hs
      exact ⟨t', by rw [Program.run_cons, hs₁', Option.bind_some, ht']⟩

/-! ## Calls -/

/-- Every function shows its results to a caller that shows its arguments.  This is
asked of the code of each function on its own, and recursion is no difficulty: the
induction is over the evaluation. -/
def Program.Follows (P : Program) (S : Signatures) : Prop :=
  ∀ (l : Label) (sig : Signature) (k : ℕ), S.functions l sig → P.target l = some k →
    sig.entry.Shows S sig.results (P.code.drop k)

/-- Outside code whose results depend on its arguments and on nothing else, and
which returns or not by its arguments and the room on the stack.  The two parts are
separate, as a relation need not be a function. -/
structure Env.Follows (env : Env) (a : Word) (sig : Signature) : Prop where
  returns : ∀ s s' t, env a s t → s'.regs .rsp = s.regs .rsp →
    (∀ r ∈ sig.args, s'.regs r = s.regs r) → ∃ t', env a s' t'
  results : ∀ s s' t t', env a s t → env a s' t' → (∀ r ∈ sig.args, s'.regs r = s.regs r) →
    ∀ r ∈ sig.results, t'.regs r = t.regs r

/-- A call that both runs make. -/
theorem Together.entered {w : Word} {s₁ s₁' : State} (h : Together P f f' p v s s')
    (hrsp : s'.regs .rsp = s.regs .rsp) (hargs : sig.args ⊆ v.seen) (hs : s.push w = some s₁)
    (hs' : s'.push w = some s₁') :
    Together P ⟨w, s.regs .rbp, s₁.regs .rsp⟩ ⟨w, s'.regs .rbp, s₁'.regs .rsp⟩ .entry sig.entry
      s₁ s₁' := by
  obtain ⟨-, hsp, -, hregs⟩ := State.push_spec hs
  obtain ⟨-, hsp', -, hregs'⟩ := State.push_spec hs'
  have hgen : ∀ r ∈ sig.args, r.general = true :=
    fun r hr => sig.general r (Finset.mem_union_left _ hr)
  refine ⟨inPhase_entry hs, inPhase_entry hs', ?_, hgen, ?_, fun r hr => ?_, ?_, ?_⟩
  · apply BitVec.eq_of_toNat_eq
    change s₁'.sp = s₁.sp
    rw [hsp, hsp', State.sp, State.sp, hrsp]
  · intro off hoff
    cases hoff
  · have hr' := (Reg.general_iff.mp (hgen r hr)).1
    rw [hregs r hr', hregs' r hr', h.regs r (hargs hr)]
  · intro l hl
    cases hl
  · intro x hx
    exact hx.elim

/-- Behind a call that both runs come back from. -/
theorem Together.called {a n top : ℕ} (h : Together P f f' (.framed a n) v s s')
    (hk : Kept top s t) (hk' : Kept top s' t') (htop : f.top + 8 ≤ top)
    (hres : ∀ r ∈ sig.results, t'.regs r = t.regs r) :
    Together P f f' (.framed a n) (v.after sig) t t' where
  left := hk.inPhase htop h.left
  right := hk'.inPhase (by rw [h.top]; exact htop) h.right
  rsp := h.rsp
  general r hr := sig.general r (Finset.mem_union_right _ hr)
  slots := h.slots
  regs := hres
  callee l hl := by cases hl
  mem x hx := by
    have hsp := h.left.2.2.2
    have hsp' := h.right.2.2.2
    rw [h.top] at hsp'
    have hin : s.sp ≤ x ∧ x < top := by
      rcases hx with ⟨off, hoff, hle, hlt⟩ | ⟨hle, hlt⟩
      · have : off ≤ a := h.slots off hoff
        omega
      · omega
    rw [hk.mem x hin.1 hin.2, hk'.mem x (by omega) hin.2, h.mem x hx]

/-- A `ret` that both runs come to. -/
theorem Together.returned {w : Word} (h : Together P f f' p v s s') (hp : p.returns = true)
    (hpop : s.pop = some (w, t)) : ∃ w' t', s'.pop = some (w', t') := by
  obtain ⟨-, hsp, -⟩ := inPhase_returns hp h.left
  obtain ⟨-, hsp', -⟩ := inPhase_returns hp h.right
  obtain ⟨hle, -, -⟩ := State.pop_spec hpop
  exact ⟨_, _, State.pop_eq (by rw [hsp', h.top, ← hsp]; exact hle)⟩

/-- The result registers are not touched by the `ret`. -/
theorem Together.results_pop {w w' : Word} (h : Together P f f' p v s s')
    (hres : results ⊆ v.seen) (hpop : s.pop = some (w, t)) (hpop' : s'.pop = some (w', t')) :
    ∀ r ∈ results, t'.regs r = t.regs r := by
  intro r hr
  obtain ⟨-, -, rfl⟩ := State.pop_spec hpop
  obtain ⟨-, -, rfl⟩ := State.pop_spec hpop'
  have hne := (Reg.general_iff.mp (h.general r (hres hr))).1
  rw [State.set_regs_of_ne _ _ hne, State.set_regs_of_ne _ _ hne, h.regs r (hres hr)]

/-- A push that both runs make. -/
theorem exists_push {w : Word} {s₁ : State} (hrsp : s'.regs .rsp = s.regs .rsp)
    (hs : s.push w = some s₁) : ∃ s₁', s'.push w = some s₁' := by
  obtain ⟨hroom, -⟩ := State.push_spec hs
  rw [State.sp, ← hrsp] at hroom
  exact ⟨_, State.push_eq hroom⟩

/-- **Two runs that are together return alike**: if one of them returns, so does the
other, with the same results.  The induction is over the evaluation of the first;
the second is taken along the same code. -/
theorem Eval.agree {env : Env} {top pc : ℕ} (hP : P.Disciplined) (henv : WellBehaved env top)
    (hfun : P.Follows S) (himp : ∀ l sig, S.imports l sig → env.Follows (P.word l) sig)
    (h : Eval P env pc s (some t)) (hacc : accepts p (P.code.drop pc) = true)
    (hshow : v.Shows S results (P.code.drop pc)) (htog : Together P f f' p v s s')
    (htop : f.top + 8 ≤ top) :
    (∃ t', Eval P env pc s' (some t')) ∧
      ∀ t', Eval P env pc s' (some t') → ∀ r ∈ results, t'.regs r = t.regs r := by
  generalize ho : some t = o at h
  induction h generalizing p f f' v results s' t with
  | @ret pc s s₁ t₁ seg rest w hcode hrun hpop =>
      cases ho
      rw [hcode] at hacc hshow
      have hplain := plain_of_run hrun
      obtain ⟨q, hq, hacc⟩ := exists_advances (ret_not_mem hplain) hacc
      obtain ⟨v₁, hv₁, hshow⟩ := hshow.split (ret_not_mem hplain)
      refine ⟨?_, fun t' ht' => ?_⟩
      · obtain ⟨s₁', hrun'⟩ := htog.exists_run hq hv₁ hrun
        obtain ⟨w', t', hpop'⟩ := (htog.run hq hv₁ hrun hrun').returned hacc hpop
        exact ⟨t', .ret hcode hrun' hpop'⟩
      · obtain ⟨s₁', w', hrun', hpop'⟩ := ht'.of_ret hcode hplain
        exact (htog.run hq hv₁ hrun hrun').results_pop hshow hpop hpop'
  | stop => cases ho
  | @call pc k s s₁ s₂ s₃ seg rest l o hcode hrun hk hpush hcallee _ ihcallee ihrest =>
      rw [hcode] at hacc hshow
      have hplain := plain_of_run hrun
      obtain ⟨q, hq, hacc⟩ := exists_advances (ret_not_mem hplain) hacc
      obtain ⟨v₁, hv₁, hshow⟩ := hshow.split (ret_not_mem hplain)
      obtain ⟨a, n, rfl, hacc⟩ := accepts_callLabel hacc
      obtain ⟨-, ⟨sig, hsig, hargs, rfl⟩, hshow⟩ := (View.shows_cons (by simp)).mp hshow
      obtain ⟨hcall, hrest⟩ := drop_of_split hcode
      rw [← hrest] at hacc hshow
      obtain ⟨-, hsp, -⟩ := State.push_spec hpush
      have hacc' := hP _ _ _ hcall hk
      obtain ⟨s₁', hrun'⟩ := htog.exists_run hq hv₁ hrun
      have htog₁ := htog.run hq hv₁ hrun hrun'
      have hplace : advance (.framed a n) (.callLabel l) = some (.framed a n) := rfl
      have hrsp := htog₁.sp hplace (by simp [room])
      obtain ⟨s₂', hpush'⟩ := exists_push hrsp hpush
      have hent := htog₁.entered hrsp hargs hpush hpush'
      have hle : s₂.sp + 8 ≤ top := by
        have := htog₁.left.2.2.2
        omega
      -- the callees are together, and so are the callers behind them
      obtain ⟨⟨s₃', hcallee'⟩, hres⟩ := ihcallee hacc' (hfun l sig k hsig hk) hent hle rfl
      have hkept := Restored.kept hpush (hcallee.restored hP henv hacc' hent.left hle)
      have hnext : ∀ s₃', Eval P env k s₂' (some s₃') →
          (∃ t', Eval P env (pc + seg.length + 1) s₃' (some t')) ∧
            ∀ t', Eval P env (pc + seg.length + 1) s₃' (some t') →
              ∀ r ∈ results, t'.regs r = t.regs r := by
        intro s₃' hcallee'
        have hkept' := Restored.kept hpush' (hcallee'.restored hP henv hacc' hent.right
          (by rw [hent.top]; exact hle))
        exact ihrest hacc hshow (htog₁.called hkept hkept' htop (hres s₃' hcallee')) htop ho
      refine ⟨?_, fun t' ht' => ?_⟩
      · obtain ⟨t', ht'⟩ := (hnext s₃' hcallee').1
        exact ⟨t', .call hcode hrun' hk hpush' hcallee' ht'⟩
      · obtain ⟨k', u₁, u₂, u₃, hu₁, hk', hu₂, hu₃, ht'⟩ := ht'.of_call hcode hplain
        cases hrun'.symm.trans hu₁
        cases hk.symm.trans hk'
        cases hpush'.symm.trans hu₂
        exact (hnext u₃ hu₃).2 t' ht'
  | callStop => cases ho
  | @outside pc s s₁ s₂ s₃ seg rest r o hcode hrun hpush hout _ ihrest =>
      rw [hcode] at hacc hshow
      have hplain := plain_of_run hrun
      obtain ⟨q, hq, hacc⟩ := exists_advances (ret_not_mem hplain) hacc
      obtain ⟨v₁, hv₁, hshow⟩ := hshow.split (ret_not_mem hplain)
      obtain ⟨a, n, rfl, hacc⟩ := accepts_callReg hacc
      obtain ⟨-, ⟨rfl, l, hl, sig, hsig, hargs, rfl⟩, hshow⟩ :=
        (View.shows_cons (by simp)).mp hshow
      obtain ⟨-, hrest⟩ := drop_of_split hcode
      rw [← hrest] at hacc hshow
      obtain ⟨s₁', hrun'⟩ := htog.exists_run hq hv₁ hrun
      have htog₁ := htog.run hq hv₁ hrun hrun'
      have hplace : advance (.framed a n) (.callReg .r10) = some (.framed a n) := rfl
      have hrsp := htog₁.sp hplace (by simp [room])
      obtain ⟨s₂', hpush'⟩ := exists_push hrsp hpush
      have hent := htog₁.entered hrsp hargs hpush hpush'
      obtain ⟨haddr, haddr'⟩ := htog₁.callee l hl
      have hfollows := himp l sig hsig
      rw [haddr] at hout
      have hnext : ∀ s₃', env (P.word l) s₂' s₃' →
          (∃ t', Eval P env (pc + seg.length + 1) s₃' (some t')) ∧
            ∀ t', Eval P env (pc + seg.length + 1) s₃' (some t') →
              ∀ r ∈ results, t'.regs r = t.regs r := by
        intro s₃' hout'
        exact ihrest hacc hshow (htog₁.called (henv.kept hpush hout) (henv.kept hpush' hout') htop
          (hfollows.results _ _ _ _ hout hout' hent.regs)) htop ho
      refine ⟨?_, fun t' ht' => ?_⟩
      · obtain ⟨s₃', hout'⟩ := hfollows.returns _ _ _ hout hent.rsp hent.regs
        obtain ⟨t', ht'⟩ := (hnext s₃' hout').1
        exact ⟨t', .outside hcode hrun' hpush' (haddr' ▸ hout') ht'⟩
      · obtain ⟨u₁, u₂, u₃, hu₁, hu₂, hu₃, ht'⟩ := ht'.of_outside hcode hplain
        cases hrun'.symm.trans hu₁
        cases hpush'.symm.trans hu₂
        exact (hnext u₃ (haddr' ▸ hu₃)).2 t' ht'

end ParaOS.X86

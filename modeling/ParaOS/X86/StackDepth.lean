import ParaOS.X86.Evaluation

/-!
# How deep an activation goes

The stack pointer of one activation, seen at the boundaries between its own
instructions: a call is a single step, which goes over the callee (`OwnStep`).
All that is asked of callees is that `rsp` and `rbp` come back.

Where `rsp` is can then be read off the instructions alone, for memory never
gets into it.  `Level` is its depth below the value on entry together with what
is known of `rbp`; `move` follows it through an instruction, and `Along Q` says
that every depth on the way to the `ret` satisfies `Q`.  Depths are integers: code
that pops more than it has pushed comes out above its frame.

What the depth cannot say is whether `rsp` has gone past the last address on the
way up and started from `0` again.  `Contained` steps are those that do not, and
`along_reach` is about runs of these.  Code that stays at or below the depth it
started from makes no others (`contained_of_along`).

### The two design decisions

**One activation, without its callees.**  How deep a function goes is a question
about its own instructions, and what its callees need is theirs.  So a call is one
step here, and a callee is a relation that restores `rsp` and `rbp`.  Nothing is
said of memory, which callees may change as they like.

**Levels are not phases.**  `Phase` of `ParaOS.X86.Frame` counts operands and
refuses code that pops too many.  Here such code is followed as well, since the
claim is about the depth it reaches and not about whether it is right; that is what
depths in `ℤ` are for.

### What is load-bearing

`AtLevel` is an equation between integers and `rsp` a register of 64 bits.  The two
agree as long as no step carries `rsp` past the last address, and that is a
condition on the state and not on the code: pops above the frame of an activation
that was entered close enough to the end of the address space wrap around, and `rsp`
is then as far down as it can be.  Hence `Contained`, and `contained_of_along` for
code in which it holds of itself.
-/

namespace ParaOS.X86

open Machine

/-! ## One activation

The points of an activation are the boundaries between its instructions.  There are
no frames and no return addresses here: an activation ends where its `ret` is next. -/

/-- Where an activation is: the index of its next instruction, and the state. -/
structure Point where
  pc : ℕ
  state : State

/-- What the calls of a program come to, by the index of the call: the state at the
call, and the state behind it, with the return address popped again. -/
abbrev Callees := ℕ → State → State → Prop

/-- Callees return with `rsp` and `rbp` as they were at the call. -/
structure Restores (callees : Callees) : Prop where
  rsp : ∀ pc s s', callees pc s s' → s'.regs .rsp = s.regs .rsp
  rbp : ∀ pc s s', callees pc s s' → s'.regs .rbp = s.regs .rbp

/-- Whether an instruction is a call. -/
def isCall : Instr → Bool
  | .callLabel _ => true
  | .callReg _ => true
  | _ => false

/-- One instruction of the activation.  A call and what it calls are one step; a
callee that does not return has none. -/
inductive OwnStep (P : Program) (callees : Callees) : Point → Point → Prop where
  | plain {pc : ℕ} {s s' : State} {i : Instr} :
      P.code[pc]? = some i → P.perform i s = some s' → OwnStep P callees ⟨pc, s⟩ ⟨pc + 1, s'⟩
  | call {pc : ℕ} {s s' : State} {i : Instr} :
      P.code[pc]? = some i → isCall i = true → callees pc s s' →
      OwnStep P callees ⟨pc, s⟩ ⟨pc + 1, s'⟩

/-- The points of a run of the activation, from any point of it on. -/
def OwnReach (P : Program) (callees : Callees) : Point → Point → Prop :=
  Relation.ReflTransGen (OwnStep P callees)

/-- What an instruction adds to `rsp`. -/
def raise : Instr → ℕ
  | .pop _ => 8
  | .addRsp n => n
  | _ => 0

/-- A step that does not take `rsp` past the last address.  Only a `pop` or an `add
rsp, n` could. -/
def Contained (P : Program) (callees : Callees) (c c' : Point) : Prop :=
  OwnStep P callees c c' ∧ ∀ i, P.code[c.pc]? = some i → c.state.sp + raise i < 2 ^ 64

/-- The points of a run in which `rsp` is never taken past the last address. -/
def ContainedReach (P : Program) (callees : Callees) : Point → Point → Prop :=
  Relation.ReflTransGen (Contained P callees)

/-- There are no jumps: an activation comes to its instructions one by one. -/
theorem OwnStep.pc_eq {P : Program} {callees : Callees} {c c' : Point}
    (h : OwnStep P callees c c') : c'.pc = c.pc + 1 := by
  cases h with
  | plain => rfl
  | call => rfl

/-- So a run never comes back to where it was. -/
theorem OwnReach.pc_le {P : Program} {callees : Callees} {c c' : Point}
    (h : OwnReach P callees c c') : c.pc ≤ c'.pc := by
  induction h with
  | refl => exact Nat.le_refl _
  | tail _ hstep ih =>
      rw [hstep.pc_eq]
      exact Nat.le_succ_of_le ih

/-- A contained run is a run. -/
theorem ContainedReach.ownReach {P : Program} {callees : Callees} {c c' : Point}
    (h : ContainedReach P callees c c') : OwnReach P callees c c' := by
  induction h with
  | refl => exact .refl
  | tail _ hstep ih => exact ih.tail hstep.1

/-! ## Levels -/

/-- How far `rsp` is below its value on entry, and what is known of `rbp`.  The
depth is known throughout; `rbp` matters only because `mov rsp, rbp` makes it the
new depth. -/
inductive Level where
  /-- `rbp` is not set up yet -/
  | bare (d : ℤ)
  /-- `rbp` is eight below the value of `rsp` on entry -/
  | framed (d : ℤ)
  /-- `rsp` is reset, and `rbp` about to be popped -/
  | reset (d : ℤ)
  /-- `rbp` is popped -/
  | done (d : ℤ)

namespace Level

/-- The depth of a level. -/
def depth : Level → ℤ
  | .bare d => d
  | .framed d => d
  | .reset d => d
  | .done d => d

/-- An instruction of the body that leaves `rsp` and `rbp` alone. -/
def stay : Level → Option Level
  | .framed d => some (.framed d)
  | _ => none

/-- An instruction of the body that writes a register. -/
def write (p : Level) (r : Reg) : Option Level := if r.general then p.stay else none

/-- The level after an instruction that is in place.  `mov rsp, rbp` comes back to
depth eight whatever was left on the stack, since `rbp` was set up there. -/
def move (p : Level) : Instr → Option Level
  | .nop => some p
  | .push r =>
      match p with
      | .bare d => if r = .rbp then some (.bare (d + 8)) else none
      | .framed d => if r.general then some (.framed (d + 8)) else none
      | _ => none
  | .pop r =>
      match p with
      | .bare d => if r = .rbp then some (.done (d - 8)) else none
      | .reset d => if r = .rbp then some (.done (d - 8)) else none
      | .framed d => if r.general then some (.framed (d - 8)) else none
      | _ => none
  | .mov dst src =>
      if dst = src then some p
      else
        match p with
        | .bare d => if dst = .rbp ∧ src = .rsp ∧ d = 8 then some (.framed 8) else none
        | .framed d =>
            if dst.general then some (.framed d)
            else if dst = .rsp ∧ src = .rbp then some (.reset 8)
            else none
        | _ => none
  | .subRsp n =>
      match p with
      | .framed d => some (.framed (d + n))
      | _ => none
  | .addRsp n =>
      match p with
      | .framed d => some (.framed (d - n))
      | _ => none
  | .store _ _ => p.stay
  | .load r _ => p.write r
  | .movImm r _ => p.write r
  | .movLabel r _ => p.write r
  | .add r _ => p.write r
  | .sub r _ => p.write r
  | .callLabel _ => p.stay
  | .callReg _ => p.stay
  | _ => none

variable {p q : Level} {r dst src : Reg}

/-- An instruction that leaves both pointers alone is in place inside the frame
only. -/
theorem stay_eq_some (h : p.stay = some q) : ∃ d, p = .framed d ∧ q = .framed d := by
  cases p with
  | framed d => exact ⟨d, rfl, (Option.some.inj h).symm⟩
  | _ => cases h

/-- One that writes a register writes a general one. -/
theorem write_eq_some (h : p.write r = some q) :
    ∃ d, p = .framed d ∧ r.general = true ∧ q = .framed d := by
  rw [write, Option.ite_none_right_eq_some] at h
  obtain ⟨d, rfl, rfl⟩ := stay_eq_some h.2
  exact ⟨d, rfl, h.1, rfl⟩

/-- A push adds eight to the depth, of `rbp` before the frame is set up and of other
registers inside it. -/
theorem move_push (h : p.move (.push r) = some q) :
    (∃ d, p = .bare d ∧ r = .rbp ∧ q = .bare (d + 8)) ∨
      ∃ d, p = .framed d ∧ r.general = true ∧ q = .framed (d + 8) := by
  cases p with
  | bare d =>
      simp only [move, Option.ite_none_right_eq_some, Option.some.injEq] at h
      exact .inl ⟨d, rfl, h.1, h.2.symm⟩
  | framed d =>
      simp only [move, Option.ite_none_right_eq_some, Option.some.injEq] at h
      exact .inr ⟨d, rfl, h.1, h.2.symm⟩
  | _ => cases h

/-- A pop takes eight off it, whether or not there was anything to pop. -/
theorem move_pop (h : p.move (.pop r) = some q) :
    (∃ d, (p = .bare d ∨ p = .reset d) ∧ r = .rbp ∧ q = .done (d - 8)) ∨
      ∃ d, p = .framed d ∧ r.general = true ∧ q = .framed (d - 8) := by
  cases p with
  | bare d =>
      simp only [move, Option.ite_none_right_eq_some, Option.some.injEq] at h
      exact .inl ⟨d, .inl rfl, h.1, h.2.symm⟩
  | reset d =>
      simp only [move, Option.ite_none_right_eq_some, Option.some.injEq] at h
      exact .inl ⟨d, .inr rfl, h.1, h.2.symm⟩
  | framed d =>
      simp only [move, Option.ite_none_right_eq_some, Option.some.injEq] at h
      exact .inr ⟨d, rfl, h.1, h.2.symm⟩
  | done d => cases h

/-- Of the moves two are about the pointers: the one that sets up `rbp` and the one
that resets `rsp`. -/
theorem move_mov (h : p.move (.mov dst src) = some q) :
    (dst = src ∧ q = p) ∨ (p = .bare 8 ∧ dst = .rbp ∧ src = .rsp ∧ q = .framed 8) ∨
      (∃ d, p = .framed d ∧ dst.general = true ∧ q = p) ∨
      ∃ d, p = .framed d ∧ dst = .rsp ∧ src = .rbp ∧ q = .reset 8 := by
  by_cases heq : dst = src
  · simp only [move, if_pos heq, Option.some.injEq] at h
    exact .inl ⟨heq, h.symm⟩
  · cases p with
    | bare d =>
        simp only [move, if_neg heq, Option.ite_none_right_eq_some, Option.some.injEq] at h
        obtain ⟨⟨hdst, hsrc, rfl⟩, rfl⟩ := h
        exact .inr (.inl ⟨rfl, hdst, hsrc, rfl⟩)
    | framed d =>
        simp only [move, if_neg heq] at h
        split_ifs at h with hgen hreset
        · exact .inr (.inr (.inl ⟨d, rfl, hgen, (Option.some.inj h).symm⟩))
        · exact .inr (.inr (.inr ⟨d, rfl, hreset.1, hreset.2, (Option.some.inj h).symm⟩))
    | _ => simp [move, heq] at h

/-- An allocation goes down by what it allocates, -/
theorem move_subRsp {n : ℕ} (h : p.move (.subRsp n) = some q) :
    ∃ d, p = .framed d ∧ q = .framed (d + n) := by
  cases p with
  | framed d => exact ⟨d, rfl, (Option.some.inj h).symm⟩
  | _ => cases h

/-- and freeing goes up by what it frees. -/
theorem move_addRsp {n : ℕ} (h : p.move (.addRsp n) = some q) :
    ∃ d, p = .framed d ∧ q = .framed (d - n) := by
  cases p with
  | framed d => exact ⟨d, rfl, (Option.some.inj h).symm⟩
  | _ => cases h

theorem move_self (p : Level) (a : Reg) : p.move (.mov a a) = some p := by
  simp [move]

end Level

/-! ## What a level means -/

/-- The state of an activation entered with `rsp` at `e`.  In integers, so that a
depth below zero, above the frame, can be stated as well. -/
def AtLevel (e : ℕ) : Level → State → Prop
  | .bare d, s => (s.sp : ℤ) + d = e
  | .framed d, s => (s.sp : ℤ) + d = e ∧ s.bp + 8 = e
  | .reset d, s => (s.sp : ℤ) + d = e
  | .done d, s => (s.sp : ℤ) + d = e

variable {P : Program} {callees : Callees} {e : ℕ} {p q : Level} {s s' : State} {i : Instr}
  {c c' : Point}

/-- Where `rsp` is, at any level. -/
theorem AtLevel.sp_eq (h : AtLevel e p s) : (s.sp : ℤ) + p.depth = e := by
  cases p with
  | framed d => exact h.1
  | _ => exact h

/-- Leaving `rsp` and `rbp` alone. -/
theorem AtLevel.congr {d : ℤ} (h : AtLevel e (.framed d) s) (hsp : s'.regs .rsp = s.regs .rsp)
    (hbp : s'.regs .rbp = s.regs .rbp) : AtLevel e (.framed d) s' := by
  simpa only [AtLevel, State.sp, State.bp, hsp, hbp] using h

/-- A general register may be written. -/
theorem AtLevel.set {r : Reg} {v : Word} {d : ℤ} (h : AtLevel e (.framed d) s)
    (hr : r.general = true) : AtLevel e (.framed d) (s.set r v) := by
  obtain ⟨hsp, hbp⟩ := Reg.general_iff.mp hr
  exact h.congr (State.set_regs_of_ne _ _ hsp.symm) (State.set_regs_of_ne _ _ hbp.symm)

/-- A push that has room does not wrap around, and goes one word down. -/
theorem atLevel_push {r : Reg} (hp : p.move (.push r) = some q) (h : AtLevel e p s)
    (hs : s.push (s.regs r) = some s') : AtLevel e q s' := by
  obtain ⟨hroom, hsp, -, hregs⟩ := State.push_spec hs
  rcases Level.move_push hp with ⟨d, rfl, -, rfl⟩ | ⟨d, rfl, -, rfl⟩
  · simp only [AtLevel] at h ⊢
    omega
  · have hbp : s'.bp = s.bp := by rw [State.bp, State.bp, hregs _ (by decide)]
    simp only [AtLevel, hbp] at h ⊢
    omega

/-- A pop goes one word up, if there is an address for it to go to.  This is where
`Contained` is needed. -/
theorem atLevel_pop {r : Reg} {v : Word} (hp : p.move (.pop r) = some q) (h : AtLevel e p s)
    (hs : s.pop = some (v, s')) (hlt : s.sp + 8 < 2 ^ 64) : AtLevel e q (s'.set r v) := by
  obtain ⟨-, -, rfl⟩ := State.pop_spec hs
  have hsp : ∀ r : Reg, Reg.rsp ≠ r →
      ((s.set .rsp (s.regs .rsp + 8)).set r v).sp = s.sp + 8 := by
    intro r hr
    rw [State.set_sp _ _ hr]
    exact s.sp_set_add hlt
  rcases Level.move_pop hp with ⟨d, hq, rfl, rfl⟩ | ⟨d, rfl, hr, rfl⟩
  · have h : (s.sp : ℤ) + d = e := by
      clear hp
      rcases hq with rfl | rfl <;> exact h
    simp only [AtLevel, hsp .rbp (by decide)]
    omega
  · obtain ⟨hrsp, hrbp⟩ := Reg.general_iff.mp hr
    have hbp : ((s.set .rsp (s.regs .rsp + 8)).set r v).bp = s.bp := by
      rw [State.set_bp _ _ hrbp.symm, State.set_bp _ _ (by decide)]
    simp only [AtLevel, hsp r hrsp.symm, hbp] at h ⊢
    omega

/-- A move between general registers stays, and the two others do what they are for.
-/
theorem atLevel_mov {dst src : Reg} (hp : p.move (.mov dst src) = some q) (h : AtLevel e p s) :
    AtLevel e q (s.set dst (s.regs src)) := by
  rcases Level.move_mov hp with ⟨rfl, rfl⟩ | ⟨rfl, rfl, rfl, rfl⟩ | ⟨d, rfl, hdst, rfl⟩ |
    ⟨d, rfl, rfl, rfl, rfl⟩
  · have hself : s.set dst (s.regs dst) = s := by
      rw [State.set, Function.update_eq_self]
    rwa [hself]
  · have hbp : (s.set .rbp (s.regs .rsp)).bp = s.sp := by
      rw [State.bp, State.set_regs_self]
      rfl
    simp only [AtLevel, State.set_sp s (s.regs .rsp) (by decide : Reg.rsp ≠ .rbp), hbp] at h ⊢
    omega
  · exact h.set hdst
  · have hsp : (s.set .rsp (s.regs .rbp)).sp = s.bp := by
      rw [State.sp, State.set_regs_self]
      rfl
    simp only [AtLevel, hsp] at h ⊢
    omega

/-- **An instruction in place leads to the next level**, unless it takes `rsp`
past the last address. -/
theorem atLevel_perform (hp : p.move i = some q) (h : AtLevel e p s)
    (hs : P.perform i s = some s') (hlt : s.sp + raise i < 2 ^ 64) : AtLevel e q s' := by
  have hwrite : ∀ {r : Reg} {v : Word}, p.write r = some q → AtLevel e q (s.set r v) := by
    intro r v hp
    obtain ⟨d, rfl, hr, rfl⟩ := Level.write_eq_some hp
    exact h.set hr
  cases i with
  | push r => exact atLevel_push hp h hs
  | pop r =>
      obtain ⟨⟨v, t⟩, hpop, rfl⟩ := Option.map_eq_some_iff.mp hs
      exact atLevel_pop hp h hpop hlt
  | mov dst src =>
      cases hs
      exact atLevel_mov hp h
  | subRsp n =>
      obtain ⟨d, rfl, rfl⟩ := Level.move_subRsp hp
      obtain ⟨hroom, hs⟩ := Option.ite_none_right_eq_some.mp hs
      cases hs
      simp only [AtLevel, s.sp_set_sub hroom, State.set_bp s _ (by decide : Reg.rbp ≠ .rsp)] at h ⊢
      omega
  | addRsp n =>
      obtain ⟨d, rfl, rfl⟩ := Level.move_addRsp hp
      cases hs
      have hsp := s.sp_set_add (n := n) hlt
      simp only [AtLevel, hsp, State.set_bp s _ (by decide : Reg.rbp ≠ .rsp)] at h ⊢
      omega
  | store off r =>
      obtain ⟨d, rfl, rfl⟩ := Level.stay_eq_some hp
      obtain ⟨-, hs⟩ := Option.ite_none_right_eq_some.mp hs
      cases hs
      exact h.congr rfl rfl
  | load r off =>
      obtain ⟨v, -, rfl⟩ := Option.map_eq_some_iff.mp hs
      exact hwrite hp
  | movImm r v =>
      cases hs
      exact hwrite hp
  | movLabel r l =>
      cases hs
      exact hwrite hp
  | add r r' =>
      cases hs
      exact hwrite hp
  | sub r r' =>
      cases hs
      exact hwrite hp
  | nop =>
      cases hs
      cases hp
      exact h
  | callLabel l => cases hs
  | callReg r => cases hs
  | _ => cases hp

/-- A contained step, of the activation itself or of a callee. -/
theorem atLevel_contained (hc : Restores callees) (hi : P.code[c.pc]? = some i)
    (hp : p.move i = some q) (h : AtLevel e p c.state) (hstep : Contained P callees c c') :
    AtLevel e q c'.state := by
  obtain ⟨hstep, hlt⟩ := hstep
  cases hstep with
  | plain hj hs =>
      rw [hi] at hj
      cases hj
      exact atLevel_perform hp h hs (hlt i hi)
  | call hj hcall hs =>
      rw [hi] at hj
      cases hj
      have hstay : p.stay = some q := by
        cases i with
        | callLabel l => exact hp
        | callReg r => exact hp
        | _ => cases hcall
      obtain ⟨d, rfl, rfl⟩ := Level.stay_eq_some hstay
      exact h.congr (hc.rsp _ _ _ hs) (hc.rbp _ _ _ hs)

/-! ## Depths along code

`Along` is a property of code that is computed by following it once.  A bound on
depths is `Along` with that bound for `Q`, and everything else asked of the code is
that its instructions are in place. -/

variable {Q : ℤ → Prop} {is js : List Instr}

/-- Every depth from here to the `ret` satisfies `Q`, and every instruction is in
place. -/
def Along (Q : ℤ → Prop) : Level → List Instr → Prop
  | _, [] => False
  | p, i :: is => Q p.depth ∧ (i = .ret ∨ ∃ q, p.move i = some q ∧ Along Q q is)

/-- The code leads from one level to another, with depths that satisfy `Q` up to
there. -/
def Passes (Q : ℤ → Prop) : Level → List Instr → Level → Prop
  | p, [], q => p = q
  | p, i :: is, q => Q p.depth ∧ ∃ p', p.move i = some p' ∧ Passes Q p' is q

/-- Code that leads from level to level is put together from pieces. -/
theorem Passes.append {p' : Level} (his : Passes Q p is p') (hjs : Passes Q p' js q) :
    Passes Q p (is ++ js) q := by
  induction is generalizing p with
  | nil =>
      cases his
      exact hjs
  | cons i is ih =>
      obtain ⟨hQ, p₁, hp₁, his⟩ := his
      exact ⟨hQ, p₁, hp₁, ih his⟩

/-- And a last piece leads to the `ret`. -/
theorem Passes.along {p' : Level} (his : Passes Q p is p') (hjs : Along Q p' js) :
    Along Q p (is ++ js) := by
  induction is generalizing p with
  | nil =>
      cases his
      exact hjs
  | cons i is ih =>
      obtain ⟨hQ, p₁, hp₁, his⟩ := his
      exact ⟨hQ, .inr ⟨p₁, hp₁, ih his⟩⟩

/-- The depth one starts from is one of them. -/
theorem Along.depth (h : Along Q p is) : Q p.depth := by
  cases is with
  | nil => cases h
  | cons i is => exact h.1

/-- What stands behind the `ret` makes no difference. -/
theorem Along.append (h : Along Q p is) : Along Q p (is ++ js) := by
  induction is generalizing p with
  | nil => cases h
  | cons i is ih =>
      obtain ⟨hQ, hret | ⟨q, hq, h⟩⟩ := h
      · exact ⟨hQ, .inl hret⟩
      · exact ⟨hQ, .inr ⟨q, hq, ih h⟩⟩

/-- A weaker condition holds along the same code. -/
theorem Along.imp {Q' : ℤ → Prop} (hQ : ∀ d, Q d → Q' d) (h : Along Q p is) : Along Q' p is := by
  induction is generalizing p with
  | nil => cases h
  | cons i is ih =>
      obtain ⟨hd, hret | ⟨q, hq, h⟩⟩ := h
      · exact ⟨hQ _ hd, .inl hret⟩
      · exact ⟨hQ _ hd, .inr ⟨q, hq, ih h⟩⟩

/-- What is in place at the first level is in place at the second.  These are the
pairs that the optimiser leads from one to the other when it takes out `mov rbp,
rsp; mov rsp, rbp`. -/
inductive Level.Precedes : Level → Level → Prop where
  | reset (d : ℤ) : Level.Precedes (.reset d) (.bare d)
  | done (d : ℤ) : Level.Precedes (.done d) (.bare d)

theorem Level.Precedes.move {p' : Level} (h : Level.Precedes p q)
    (hp : p.move i = some p') : q.move i = some p' ∨ (p' = p ∧ q.move i = some q) := by
  cases i with
  | nop =>
      cases hp
      exact .inr ⟨rfl, rfl⟩
  | mov dst src =>
      rcases Level.move_mov hp with ⟨rfl, rfl⟩ | ⟨rfl, -⟩ | ⟨d, rfl, -⟩ | ⟨d, rfl, -⟩
      · exact .inr ⟨rfl, Level.move_self q dst⟩
      · cases h
      · cases h
      · cases h
  | _ => cases h <;> first | exact .inl hp | cases hp

/-- From the second level of a pair the same code stays within the same depths. -/
theorem along_mono (h : Level.Precedes p q)
    (his : Along Q p is) : Along Q q is := by
  have hdepth : q.depth = p.depth := by cases h <;> rfl
  induction is with
  | nil => cases his
  | cons i is ih =>
      obtain ⟨hQ, hret | ⟨p', hp', his⟩⟩ := his
      · exact ⟨hdepth ▸ hQ, .inl hret⟩
      · refine ⟨hdepth ▸ hQ, .inr ?_⟩
        rcases h.move hp' with hq | ⟨rfl, hq⟩
        · exact ⟨p', hq, his⟩
        · exact ⟨q, hq, ih his⟩

theorem Along.exists_move (hi : i ≠ .ret)
    (h : Along Q p (i :: is)) : ∃ q, p.move i = some q ∧ Along Q q is :=
  h.2.resolve_left hi

/-- The instruction an activation comes to, and the level after it. -/
theorem Along.step (h : Along Q p (P.code.drop c.pc)) (hstep : OwnStep P callees c c') :
    ∃ i q, P.code[c.pc]? = some i ∧ p.move i = some q ∧ Along Q q (P.code.drop c'.pc) := by
  obtain ⟨i, hi, hret⟩ : ∃ i, P.code[c.pc]? = some i ∧ i ≠ .ret := by
    cases hstep with
    | plain hi hs =>
        refine ⟨_, hi, ?_⟩
        rintro rfl
        cases hs
    | call hi hcall hs =>
        refine ⟨_, hi, ?_⟩
        rintro rfl
        cases hcall
  rw [drop_eq_cons hi] at h
  obtain ⟨-, hret' | ⟨q, hq, h⟩⟩ := h
  · exact absurd hret' hret
  · exact ⟨i, q, hi, hq, by rwa [hstep.pc_eq]⟩

/-- **The depths of a run are those along the code.**  By induction over the run; it
is about contained runs, and it is where the depth of the code and the `rsp` of the
machine are brought together. -/
theorem along_reach (hc : Restores callees) (h : Along Q p (P.code.drop c.pc))
    (hp : AtLevel e p c.state) (hreach : ContainedReach P callees c c') :
    ∃ q, AtLevel e q c'.state ∧ Along Q q (P.code.drop c'.pc) := by
  induction hreach with
  | refl => exact ⟨p, hp, h⟩
  | tail _ hstep ih =>
      obtain ⟨q, hq, halong⟩ := ih
      obtain ⟨i, q', hi, hmove, halong'⟩ := halong.step hstep.1
      exact ⟨q', atLevel_contained hc hi hmove hq hstep, halong'⟩

/-- A step to a level at or below the one on entry does not take `rsp` past the
last address. -/
theorem contained_of_move (hi : P.code[c.pc]? = some i) (hp : p.move i = some q)
    (h : AtLevel e p c.state) (he : e < 2 ^ 64) (hq : 0 ≤ q.depth)
    (hstep : OwnStep P callees c c') : Contained P callees c c' := by
  refine ⟨hstep, fun j hj => ?_⟩
  rw [hi] at hj
  cases hj
  have hsp := h.sp_eq
  have hlt := c.state.sp_lt
  cases i with
  | pop r =>
      have hd : q.depth = p.depth - 8 := by
        rcases Level.move_pop hp with ⟨d, rfl | rfl, -, rfl⟩ | ⟨d, rfl, -, rfl⟩ <;> rfl
      simp only [raise]
      omega
  | addRsp n =>
      obtain ⟨d, rfl, rfl⟩ := Level.move_addRsp hp
      simp only [Level.depth] at hsp hq
      simp only [raise]
      omega
  | _ => exact hlt

/-- **Code that stays at or below the depth it starts from does not take `rsp`
past the last address.** -/
theorem contained_of_along (hc : Restores callees) (hQ : ∀ d, Q d → 0 ≤ d) (he : e < 2 ^ 64)
    (h : Along Q p (P.code.drop c.pc)) (hp : AtLevel e p c.state)
    (hreach : OwnReach P callees c c') : ContainedReach P callees c c' := by
  induction hreach with
  | refl => exact .refl
  | tail _ hstep ih =>
      obtain ⟨q, hq, halong⟩ := along_reach hc h hp ih
      obtain ⟨i, q', hi, hmove, halong'⟩ := halong.step hstep
      exact ih.tail (contained_of_move hi hmove hq he (hQ _ halong'.depth) hstep)

/-! ## Points on the way -/

/-- A stretch of straight-line code is a run of the activation. -/
theorem ownReach_of_run {pc : ℕ} (hcode : is <+: P.code.drop pc) (h : P.run is s = some s') :
    OwnReach P callees ⟨pc, s⟩ ⟨pc + is.length, s'⟩ :=
  reflTransGen_of_run (c := Point.mk) (fun _ _ _ _ => .plain) hcode h

/-- A run passes every index between its ends. -/
theorem OwnReach.exists_between (h : OwnReach P callees c c') {k : ℕ} (hle : c.pc ≤ k)
    (hk : k ≤ c'.pc) : ∃ s, OwnReach P callees c ⟨k, s⟩ ∧ OwnReach P callees ⟨k, s⟩ c' := by
  induction h with
  | refl =>
      obtain rfl : k = c.pc := Nat.le_antisymm hk hle
      exact ⟨c.state, .refl, .refl⟩
  | @tail c₁ c₂ hreach hstep ih =>
      rcases Nat.lt_or_ge c₁.pc k with hlt | hge
      · have hpc := hstep.pc_eq
        obtain rfl : k = c₂.pc := by omega
        exact ⟨c₂.state, hreach.tail hstep, .refl⟩
      · obtain ⟨s, hs, hs'⟩ := ih hge
        exact ⟨s, hs, hs'.tail hstep⟩

/-- The level behind a stretch of code, in a run that gets there. -/
theorem Passes.atLevel (hc : Restores callees) (h : Passes Q p is q)
    (hcode : is <+: P.code.drop c.pc) (hp : AtLevel e p c.state)
    (hreach : ContainedReach P callees c c') (hpc : c'.pc = c.pc + is.length) :
    AtLevel e q c'.state := by
  induction is generalizing p c with
  | nil =>
      cases h
      cases Relation.ReflTransGen.cases_head hreach with
      | inl heq => rwa [← heq]
      | inr hstep =>
          obtain ⟨c₁, hstep, hreach⟩ := hstep
          have h₁ := hstep.1.pc_eq
          have h₂ := (ContainedReach.ownReach hreach).pc_le
          rw [List.length_nil] at hpc
          omega
  | cons i is ih =>
      obtain ⟨-, p', hp', h⟩ := h
      obtain ⟨rest, hrest⟩ := hcode
      have hi : P.code[c.pc]? = some i := by
        rw [← List.head?_drop, ← hrest]
        rfl
      cases Relation.ReflTransGen.cases_head hreach with
      | inl heq =>
          rw [heq, List.length_cons] at hpc
          omega
      | inr hstep =>
          obtain ⟨c₁, hstep, hreach⟩ := hstep
          have hpc₁ := hstep.1.pc_eq
          refine ih h ?_ (atLevel_contained hc hi hp' hp hstep) hreach ?_
          · rw [hpc₁, ← List.tail_drop, ← hrest]
            exact List.prefix_append _ _
          · rw [hpc, hpc₁, List.length_cons]
            omega

/-! ## Bounds -/

/-- At every point of the activation that starts at `j`, as long as `rsp` has not
been taken past the last address, it is at most `bound` below its value on entry.
In addition form, so that nothing is cut off at zero. -/
def StaysAbove (P : Program) (callees : Callees) (j bound : ℕ) : Prop :=
  ∀ s c, ContainedReach P callees ⟨j, s⟩ c → s.sp ≤ c.state.sp + bound

/-- No run of the activation that starts at `j` takes `rsp` past the last
address. -/
def NeverWraps (P : Program) (callees : Callees) (j : ℕ) : Prop :=
  ∀ s c, OwnReach P callees ⟨j, s⟩ c → ContainedReach P callees ⟨j, s⟩ c

/-- A run of the activation that starts at `j` and gets to its `ret` has a point
where `rsp` is `bound` below its value on entry.  Together with `StaysAbove` this
makes a bound exact. -/
def Attains (P : Program) (callees : Callees) (j bound : ℕ) : Prop :=
  ∀ s c, OwnReach P callees ⟨j, s⟩ c → P.code[c.pc]? = some .ret →
    ∃ m, OwnReach P callees ⟨j, s⟩ m ∧ OwnReach P callees m c ∧ m.state.sp + bound = s.sp

/-- The level a function is entered at. -/
theorem atLevel_entry (s : State) : AtLevel s.sp (.bare 0) s := Int.add_zero _

/-- A bound on the depths along the code is one on the runs of it. -/
theorem Along.staysAbove {j bound : ℕ} (hc : Restores callees) (hQ : ∀ d, Q d → d ≤ bound)
    (h : Along Q (.bare 0) (P.code.drop j)) : StaysAbove P callees j bound := by
  intro s c hreach
  obtain ⟨q, hq, halong⟩ := along_reach (c := ⟨j, s⟩) hc h (atLevel_entry s) hreach
  have hsp := hq.sp_eq
  have hle := hQ _ halong.depth
  omega

/-- Code that never pops past its frame never wraps around. -/
theorem Along.neverWraps {j : ℕ} (hc : Restores callees) (hQ : ∀ d, Q d → 0 ≤ d)
    (h : Along Q (.bare 0) (P.code.drop j)) : NeverWraps P callees j := fun s _ =>
  contained_of_along (c := ⟨j, s⟩) hc hQ s.sp_lt h (atLevel_entry s)

/-- There is no `ret` in code that leads from one level to another. -/
theorem Passes.ret_not_mem (h : Passes Q p is q) : .ret ∉ is := by
  induction is generalizing p with
  | nil => simp
  | cons i is ih =>
      obtain ⟨-, p', hp', h⟩ := h
      rw [List.mem_cons, not_or]
      refine ⟨?_, ih h⟩
      rintro rfl
      cases hp'

/-- A depth that is come to along the code is come to in every run that gets to its
`ret`, as there is only one way through it. -/
theorem Passes.attains {j bound : ℕ} (hc : Restores callees)
    (h : Passes Q (.bare 0) is (.framed bound)) (his : is <+: P.code.drop j)
    (hwraps : NeverWraps P callees j) : Attains P callees j bound := by
  intro s c hreach hret
  have hle := hreach.pc_le
  -- the run goes through all of the code on its way to the `ret`
  have hpc : j + is.length ≤ c.pc := by
    by_contra hlt
    have hget : is[c.pc - j]? = some .ret := by
      obtain ⟨rest, hrest⟩ := his
      have hlt' : c.pc - j < is.length := by simp only at hle; omega
      calc is[c.pc - j]? = (is ++ rest)[c.pc - j]? := (List.getElem?_append_left hlt').symm
        _ = some .ret := by rw [hrest, List.getElem?_drop, Nat.add_sub_cancel' hle, hret]
    exact h.ret_not_mem (List.mem_of_getElem? hget)
  obtain ⟨s', hs', hc'⟩ := hreach.exists_between (k := j + is.length) (Nat.le_add_right _ _) hpc
  have hat := h.atLevel hc his (atLevel_entry s) (hwraps s _ hs') rfl
  refine ⟨_, hs', hc', ?_⟩
  have := hat.1
  omega

end ParaOS.X86

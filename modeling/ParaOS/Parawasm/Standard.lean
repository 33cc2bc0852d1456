import ParaOS.Parawasm.Termination

/-!
# Where compiled code is WebAssembly

The convention of emitted code differs from WebAssembly's in three points: a callee
sees its arguments in reverse, two results change places, and a difference is taken
the other way round.  A module in which none of them matters is `Conventional`, and
what its compiled functions return is what WebAssembly says
(`standard_calls_return`).

`Conventional` is stronger than it would have to be for a single call: two equal
results come back in any order, and a list of arguments may be a palindrome
(`ParaOS.Parawasm.CallConvention`).  For a module as a whole, whatever values its
functions compute, it is what is needed.  The other conditions are those of
`Compiled`.
-/

namespace ParaOS.Parawasm

open Machine X86 Wasm

variable {V : Validator} {E : Encoder} {ps : List Payload} {σ : Compiling V}
  {address address' : ℕ → Word} {word : Label → Word} {env : Env} {k top : ℕ}
  {outside : ℕ → Option ℕ} {R : ℕ → List Word → List Word → Prop}

/-- Functions of a module take at most one argument, return at most one result and do
not subtract. -/
structure Conventional (ps : List Payload) : Prop where
  params : ∀ f ty, declaredType ps f = some ty → ty.params.length ≤ 1
  returns : ∀ f ty, declaredType ps f = some ty → ty.returns.length ≤ 1
  operators : ∀ body ∈ bodies ps, .i64Sub ∉ body.operators.items

/-- A list of one element or none is its own reverse. -/
theorem reverse_of_length_le_one {l : List Word} (h : l.length ≤ 1) : l.reverse = l := by
  cases l with
  | nil => rfl
  | cons v l =>
      obtain rfl : l = [] := List.length_eq_zero_iff.mp (by simpa using h)
      rfl

/-- For such a module the convention of emitted code is WebAssembly's. -/
theorem Conventional.agree (hconv : Conventional ps) (hal : NoAliases ps) :
    Convention.Agree (functionsOf ps) convention .standard where
  difference f d hd hsub := by
    obtain ⟨k, body, ty, -, hbody, -, rfl⟩ := exists_body_of_definition hal hd
    exact absurd hsub (hconv.operators body (List.mem_of_getElem? hbody))
  arguments f ty args hty hargs :=
    reverse_of_length_le_one (hargs ▸ hconv.params f ty hty)
  results f ty results hty hresults :=
    reverse_of_length_le_one (hresults ▸ hconv.returns f ty hty)

/-- **Compiled code computes what WebAssembly says**, if there is as much stack as
it takes, in modules whose functions have at most one param and one result and do
not subtract: as emitted and as optimised.

`Conventional` is what makes the order of operands and arguments invisible, and is
read off the module.  Each part of it is needed, as there are functions with two
arguments, with two results or with a subtraction that return something else. -/
theorem standard_calls_return (h : Compiled V E ps σ) (hconv : Conventional ps)
    (hsep : (σ.emittedProgram address word).Separate)
    (hsep' : (σ.program address' word).Separate) (henv : WellBehaved env top)
    (hind : env.Indifferent (Set.range address ∪ Set.range address')) (htop : top ≤ 2 ^ 64)
    (hI : Behaves ps σ.toContext word env top (bounded outside R))
    (hR : Total (functionsOf ps) outside R) (hk : k < (bodies ps).length) :
    ∃ ty i j,
      StandsAt ps σ.toContext (σ.emittedProgram address word)
        ((functionImports ps).length + k) ty i ∧
      StandsAt ps σ.toContext (σ.program address' word) ((functionImports ps).length + k) ty j ∧
      ∀ (s : X86.State) (results : List Word), s.sp + 8 ≤ top →
        Enough (functionsOf ps) outside ((functionImports ps).length + k) s.sp →
        ((∃ t, Returns (σ.emittedProgram address word) env i s t ∧
            resultsOf t ty.returns.length = results) ↔
          Computes (functionsOf ps) .standard R ((functionImports ps).length + k)
            (argumentsOf s ty.params.length) results) ∧
        ((∃ t, Returns (σ.program address' word) env j s t ∧
            resultsOf t ty.returns.length = results) ↔
          Computes (functionsOf ps) .standard R ((functionImports ps).length + k)
            (argumentsOf s ty.params.length) results) := by
  obtain ⟨ty, i, hi, hemitted⟩ := h.emitted_returns hsep henv htop hI hR hk
  obtain ⟨ty', j, hj, hoptimised⟩ := h.optimised_returns hsep hsep' henv hind htop hI hR hk
  cases hi.type.symm.trans hj.type
  refine ⟨ty, i, j, hi, hj, fun s results hle henough => ?_⟩
  have hstandard : Computes (functionsOf ps) convention R ((functionImports ps).length + k)
        (argumentsOf s ty.params.length) results ↔
      Computes (functionsOf ps) .standard R ((functionImports ps).length + k)
        (argumentsOf s ty.params.length) results :=
    exists_congr fun n => calls_congr (hconv.agree h.noAliases)
  refine ⟨((hemitted s results hle).trans (and_iff_right henough)).trans hstandard,
    (hoptimised s results hle henough).trans hstandard⟩

/-- Called with `5`, the function of `askingModule` returns `6`, with no more than
24 bytes of stack. -/
theorem standard_calls_return_instance : ∃ t,
    Returns askingProgram increments 3 ((State.ofStack 24 100 [0]).set .rdi 5) t ∧
      resultsOf t 1 = [6] := by
  have hconv : Conventional (Script.payloads askingModule) := by
    refine ⟨fun f ty hty => ?_, fun f ty hty => ?_, by decide⟩
    · rw [askingModule_type hty]
      exact Nat.le_refl 1
    · rw [askingModule_type hty]
      exact Nat.le_refl 1
  obtain ⟨ty, i, j, -, hj, hreturns⟩ := standard_calls_return askingModule_compiled hconv
    askingModule_separate.1 askingModule_separate.2 (wellBehaved_increments _)
    (indifferent_increments _) (by decide) askingModule_behaves askingModule_total (k := 0)
    (by decide)
  rw [askingModule_program] at hj hreturns
  obtain ⟨rfl, htarget⟩ := askingModule_standsAt hj
  cases htarget
  refine (hreturns ((State.ofStack 24 100 [0]).set .rdi 5) [6] (by decide)
    ⟨1, 24, rfl, Nat.le_refl 24⟩).2.mpr ?_
  exact ⟨24, _, _, 8, _, rfl, rfl, rfl, by decide,
    askingModule_runs (m := 0) (Nat.le_refl 8) rfl ⟨5, rfl, rfl⟩, rfl, rfl⟩

end ParaOS.Parawasm

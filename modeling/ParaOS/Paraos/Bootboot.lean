import ParaOS.Machine.Memory

/-!
# `paraos::bootboot` and the boot loop of `_start`

The loader leaves an information page of 4096 bytes: a header of 128 bytes, whose
`size` counts the header and the entries of the memory map behind it, and the
entries, 16 bytes each.  `Bootboot` lays a packed struct over the page.

Three numbers have to go together here, and do not.  The page has room for 248
entries; the array of the struct has `(0xfff - 0x80) / 16`, which is 247; and the
loop of `_start` takes `[1..]` of whatever `memory_mappings` returns.  So a full
map is out of range of the array, an empty one is out of range of the `[1..]`, and
the first entry is never handed to the allocator (`memory_map_handed_over_iff`).

The allocator is not part of the repository.  It is a parameter of the loop: a
function that adds a range, and may panic.  Whether `+` and `-` panic on overflow
or wrap around is a matter of how the crate is built (`overflowChecks`).

### What is exact

`HandedOver` asks for more than that the loop ends well.  `memory_mappings` has to
return the map, and for every allocator the loop has to be the calls for the free
ranges, in order, and nothing else; so an allocator that panics is no excuse, and
one that ignores what it is given is no help.  The proof from left to right runs the
loop with an allocator that writes down what it is given (`logRange`).

Arithmetic is that of `u32` and `u64`, with overflow checks and without.  Both
builds fail on the same pages: where a checked build panics at the end of a range,
an unchecked one hands over a range that ends in front of its start.
-/

namespace ParaOS.Paraos

open Machine

/-! ## Operators that may panic

A panic is `none`.  What is left undone by it does not matter, for there is nobody
who would look. -/

/-- `&xs[start..end]` -/
def slice {α : Type} (xs : List α) (first last : ℕ) : Option (List α) :=
  if first ≤ last ∧ last ≤ xs.length then some ((xs.take last).drop first) else none

/-- `a + b` on unsigned integers. -/
def checkedAdd {w : ℕ} (overflowChecks : Bool) (a b : BitVec w) : Option (BitVec w) :=
  if overflowChecks && decide (2 ^ w ≤ a.toNat + b.toNat) then none else some (a + b)

/-- `a - b` on unsigned integers. -/
def checkedSub {w : ℕ} (overflowChecks : Bool) (a b : BitVec w) : Option (BitVec w) :=
  if overflowChecks && decide (a.toNat < b.toNat) then none else some (a - b)

/-! ## `bootboot.rs`

Fields of a packed struct are read as they are.  `memory_mappings` takes the number
of entries from `size`, and the entries from an array that is one entry short. -/

/-- `MemoryMapping` -/
structure MemoryMapping where
  /-- `_ptr` -/
  ptr : Word
  /-- `_size`, with the type of the range in its lowest four bits -/
  sizeAndType : Word
  deriving DecidableEq

namespace MemoryMapping

/-- `addr` -/
def addr (e : MemoryMapping) : Word := e.ptr

/-- `size` -/
def size (e : MemoryMapping) : Word := e.sizeAndType &&& 0xFFFFFFFFFFFFFFF0

/-- `is_free` -/
def isFree (e : MemoryMapping) : Bool := e.sizeAndType &&& 0xf == 1

/-- `entry.is_free() && entry.addr() != 0x0` -/
def usable (e : MemoryMapping) : Bool := e.isFree && e.addr != 0

end MemoryMapping

/-- The length of the array `mmap`. -/
abbrev mmapLen : ℕ := (0xfff - 0x80) / 16

/-- `Bootboot`, as far as the boot loop reads it. -/
structure Bootboot where
  size : BitVec 32
  mmap : Vector MemoryMapping mmapLen

/-- `memory_mappings` -/
def Bootboot.memoryMappings (overflowChecks : Bool) (b : Bootboot) :
    Option (List MemoryMapping) := do
  let n ← checkedSub overflowChecks b.size 128
  slice b.mmap.toList 0 (n / 16).toNat

/-! ## The loop of `_start`

The allocator is a function of the heap and of two addresses, and may panic. -/

/-- One turn of the loop. -/
def addEntry {σ : Type} (overflowChecks : Bool) (addToHeap : σ → Word → Word → Option σ) (heap : σ)
    (entry : MemoryMapping) : Option σ :=
  if entry.usable then do
    let last ← checkedAdd overflowChecks entry.addr entry.size
    addToHeap heap entry.addr last
  else some heap

/-- `for entry in &BOOTBOOT.memory_mappings()[1..]` -/
def bootLoop {σ : Type} (overflowChecks : Bool) (addToHeap : σ → Word → Word → Option σ)
    (b : Bootboot) (heap : σ) : Option σ := do
  let mappings ← b.memoryMappings overflowChecks
  let entries ← slice mappings 1 mappings.length
  entries.foldlM (addEntry overflowChecks addToHeap) heap

/-! ## The information page

What the protocol says of the page, against which the code is held: how many entries
there are, and which of them are free. -/

/-- Entry number `i` of the memory map on a page. -/
def mappingAt (m : Mem) (page i : ℕ) : MemoryMapping :=
  ⟨m.load (page + 128 + 16 * i), m.load (page + 128 + 16 * i + 8)⟩

/-- `size` on a page. -/
def sizeAt (m : Mem) (page : ℕ) : BitVec 32 := (m.load (page + 4)).setWidth 32

/-- The struct that lies over a page. -/
def Bootboot.ofPage (m : Mem) (page : ℕ) : Bootboot :=
  ⟨sizeAt m page, Vector.ofFn fun i => mappingAt m page i⟩

/-- A page with `k` entries, as the protocol allows. -/
def Allowed (m : Mem) (page k : ℕ) : Prop :=
  (sizeAt m page).toNat = 128 + 16 * k ∧ 128 + 16 * k ≤ 4096

/-- The memory map of a page with `k` entries. -/
def memoryMap (m : Mem) (page k : ℕ) : List MemoryMapping := (List.range k).map (mappingAt m page)

/-- The ranges of the free entries with non-zero address. -/
def freeRanges (es : List MemoryMapping) : List (ℕ × ℕ) :=
  (es.filter MemoryMapping.usable).map fun e => (e.addr.toNat, e.addr.toNat + e.size.toNat)

/-- `memory_mappings` returns the memory map, and what the loop does to a heap is
to add the free ranges to it, each once and in order; it panics where the
allocator does. -/
structure HandedOver (overflowChecks : Bool) (m : Mem) (page k : ℕ) : Prop where
  mappings : (Bootboot.ofPage m page).memoryMappings overflowChecks = some (memoryMap m page k)
  ranges : ∃ calls : List (Word × Word),
    calls.map (fun c => (c.1.toNat, c.2.toNat)) = freeRanges (memoryMap m page k) ∧
    ∀ (σ : Type) (addToHeap : σ → Word → Word → Option σ) (heap : σ),
      bootLoop overflowChecks addToHeap (Bootboot.ofPage m page) heap =
        calls.foldlM (fun heap c => addToHeap heap c.1 c.2) heap

/-! ## What the loop does

It is computed for every page the protocol allows.  A page that is too full panics
in `memory_mappings`, one without entries in `[1..]`, and from all others the loop
goes over the entries behind the first. -/

variable {overflowChecks : Bool} {m : Mem} {page k : ℕ}

/-- The end of the range is an address. -/
def MemoryMapping.Fits (e : MemoryMapping) : Prop := e.addr.toNat + e.size.toNat < 2 ^ 64

instance (e : MemoryMapping) : Decidable e.Fits := inferInstanceAs (Decidable (_ < _))

/-- The calls of `add_to_heap` for a list of entries, with ends that wrap around. -/
def callsFor (es : List MemoryMapping) : List (Word × Word) :=
  (es.filter MemoryMapping.usable).map fun e => (e.addr, e.addr + e.size)

/-- A sum that is not checked, or does not overflow. -/
theorem checkedAdd_eq_some {w : ℕ} {a b : BitVec w}
    (h : overflowChecks = true → a.toNat + b.toNat < 2 ^ w) :
    checkedAdd overflowChecks a b = some (a + b) := by
  rw [checkedAdd, if_neg]
  rw [Bool.and_eq_true, decide_eq_true_eq]
  rintro ⟨hchecks, hle⟩
  have := h hchecks
  omega

/-- A list of entries all of which fit, or are not checked. -/
theorem foldlM_addEntry {σ : Type} (addToHeap : σ → Word → Word → Option σ)
    {es : List MemoryMapping} (h : overflowChecks = true → ∀ e ∈ es, e.usable = true → e.Fits)
    (heap : σ) : es.foldlM (addEntry overflowChecks addToHeap) heap =
      (callsFor es).foldlM (fun heap c => addToHeap heap c.1 c.2) heap := by
  induction es generalizing heap with
  | nil => rfl
  | cons e es ih =>
      have hrest := ih fun hchecks => (List.forall_mem_cons.mp (h hchecks)).2
      rw [List.foldlM_cons]
      by_cases he : e.usable = true
      · have hcalls : callsFor (e :: es) = (e.addr, e.addr + e.size) :: callsFor es := by
          simp [callsFor, he]
        rw [hcalls, List.foldlM_cons, addEntry, if_pos he, checkedAdd_eq_some fun hchecks =>
          (List.forall_mem_cons.mp (h hchecks)).1 he]
        exact congrArg (Option.bind _) (funext hrest)
      · have hcalls : callsFor (e :: es) = callsFor es := by simp [callsFor, he]
        rw [hcalls, addEntry, if_neg he]
        exact hrest heap

/-- An entry that does not fit stops a checked loop, whatever the allocator does. -/
theorem foldlM_addEntry_eq_none {σ : Type} (addToHeap : σ → Word → Word → Option σ)
    {es : List MemoryMapping} {e : MemoryMapping} (he : e ∈ es) (husable : e.usable = true)
    (hfits : ¬ e.Fits) (heap : σ) : es.foldlM (addEntry true addToHeap) heap = none := by
  induction es generalizing heap with
  | nil => cases he
  | cons e' es ih =>
      rw [List.foldlM_cons]
      rcases List.mem_cons.mp he with rfl | he
      · have hadd : checkedAdd true e.addr e.size = none := by
          rw [checkedAdd, if_pos]
          simpa [MemoryMapping.Fits] using hfits
        rw [addEntry, if_pos husable, hadd]
        rfl
      · cases addEntry true addToHeap heap e' with
        | none => rfl
        | some heap' => exact ih he heap'

/-- There are as many entries as the protocol says. -/
theorem length_memoryMap (m : Mem) (page k : ℕ) : (memoryMap m page k).length = k := by
  rw [memoryMap, List.length_map, List.length_range]

/-- Entries that are read one by one. -/
theorem ofFn_mappingAt (n : ℕ) :
    List.ofFn (fun i : Fin n => mappingAt m page i) = memoryMap m page n := by
  refine List.ext_getElem (by simp [memoryMap]) fun i hi hi' => ?_
  simp [memoryMap]

/-- The array is a beginning of the map. -/
theorem toList_mmap : (Bootboot.ofPage m page).mmap.toList = memoryMap m page mmapLen := by
  rw [Bootboot.ofPage, Vector.toList_ofFn]
  exact ofFn_mappingAt mmapLen

/-- The number of entries is read off `size`. -/
theorem checkedSub_size (overflowChecks : Bool) (h : Allowed m page k) :
    ∃ n, checkedSub overflowChecks (sizeAt m page) 128 = some n ∧ (n / 16).toNat = k := by
  obtain ⟨hsize, hle⟩ := h
  refine ⟨sizeAt m page - 128, ?_, ?_⟩
  · rw [checkedSub, if_neg]
    rw [Bool.and_eq_true, decide_eq_true_eq, hsize]
    rintro ⟨-, hlt⟩
    change 128 + 16 * k < 128 at hlt
    omega
  · have hsub : (sizeAt m page - 128).toNat = 16 * k := by
      rw [BitVec.toNat_sub, hsize]
      change (2 ^ 32 - 128 + (128 + 16 * k)) % 2 ^ 32 = 16 * k
      omega
    rw [BitVec.toNat_udiv, hsub]
    exact Nat.mul_div_cancel_left k (by decide)

/-- **`memory_mappings` returns the map**, unless it is longer than the array. -/
theorem memoryMappings_eq (h : Allowed m page k) :
    (Bootboot.ofPage m page).memoryMappings overflowChecks =
      if k ≤ mmapLen then some (memoryMap m page k) else none := by
  obtain ⟨n, hn, hk⟩ := checkedSub_size overflowChecks h
  have hsize : (Bootboot.ofPage m page).size = sizeAt m page := rfl
  rw [Bootboot.memoryMappings, hsize, hn]
  change slice _ 0 _ = _
  rw [slice, toList_mmap, hk, length_memoryMap]
  split_ifs with hle hle' hle'
  · simp only [memoryMap, List.drop_zero, ← List.map_take, List.take_range, min_eq_left hle']
  · exact absurd hle.2 hle'
  · exact absurd ⟨Nat.zero_le _, hle'⟩ hle
  · rfl

/-- The loop goes over the map without its first entry. -/
theorem bootLoop_eq {σ : Type} (addToHeap : σ → Word → Word → Option σ) (heap : σ)
    (h : Allowed m page k) :
    bootLoop overflowChecks addToHeap (Bootboot.ofPage m page) heap =
      if 1 ≤ k ∧ k ≤ mmapLen then
        (memoryMap m page k).tail.foldlM (addEntry overflowChecks addToHeap) heap
      else none := by
  have hlen := length_memoryMap m page k
  rw [bootLoop, memoryMappings_eq h]
  by_cases hle : k ≤ mmapLen
  · rw [if_pos hle]
    change (slice (memoryMap m page k) 1 (memoryMap m page k).length).bind _ = _
    rw [slice, hlen]
    by_cases hk : 1 ≤ k
    · rw [if_pos ⟨hk, le_rfl⟩, if_pos ⟨hk, hle⟩, List.take_of_length_le (le_of_eq hlen),
        List.drop_one]
      rfl
    · rw [if_neg fun h => hk h.1, if_neg fun h => hk h.1]
      rfl
  · rw [if_neg hle, if_neg fun h => hle h.2]
    rfl

/-! ## When the map is handed over

Every part of the condition is used from right to left.  From left to right an entry
that is usable and first, or one that does not fit, makes the calls of the loop
other than the free ranges, or the loop panic. -/

/-- An allocator that writes down what it is given. -/
def logRange (log : List (Word × Word)) (first last : Word) : Option (List (Word × Word)) :=
  some (log ++ [(first, last)])

/-- What it has been given is what was to be handed over. -/
theorem foldlM_logRange (calls log : List (Word × Word)) :
    calls.foldlM (fun log c => logRange log c.1 c.2) log = some (log ++ calls) := by
  induction calls generalizing log with
  | nil => simp
  | cons c calls ih =>
      rw [List.foldlM_cons, logRange]
      exact (ih _).trans (by simp)

/-- The ranges of the calls are the free ranges exactly if all of them fit. -/
theorem map_callsFor_iff {es : List MemoryMapping} :
    (callsFor es).map (fun c => (c.1.toNat, c.2.toNat)) = freeRanges es ↔
      ∀ e ∈ es, e.usable = true → e.Fits := by
  rw [callsFor, freeRanges, List.map_map, List.map_inj_left]
  simp only [List.mem_filter, and_imp, Function.comp_apply, Prod.mk.injEq, true_and]
  refine forall_congr' fun e => forall_congr' fun _ => forall_congr' fun _ => ?_
  rw [MemoryMapping.Fits, BitVec.toNat_add]
  constructor
  · intro h
    rw [← h]
    exact Nat.mod_lt _ (by decide)
  · exact Nat.mod_eq_of_lt

/-- There is one call for each range. -/
theorem length_freeRanges (es : List MemoryMapping) :
    (freeRanges es).length = (callsFor es).length := by
  rw [freeRanges, callsFor, List.length_map, List.length_map]

/-- **When the memory map is handed over.**  A page that the protocol allows gets
through exactly if it has an entry but no more than 247, the first of them is not a
free one with an address, and the end of every free range is an address.

It is the same condition in both kinds of build, and for every allocator.  The
number 247 is the length of the array and not that of the page, which has room for
one more. -/
theorem memory_map_handed_over_iff (h : Allowed m page k) :
    HandedOver overflowChecks m page k ↔
      (1 ≤ k ∧ k ≤ 247) ∧ (∀ e ∈ (memoryMap m page k).head?, e.usable = false) ∧
        ∀ e ∈ memoryMap m page k, e.usable = true → e.Fits := by
  have hlen := length_memoryMap m page k
  constructor
  · rintro ⟨hmap, calls, hcalls, hloop⟩
    have hle : k ≤ mmapLen := by
      by_contra hlt
      rw [memoryMappings_eq h, if_neg hlt] at hmap
      cases hmap
    -- the calls are those an allocator that writes them down is given
    have hlog := hloop _ logRange []
    rw [foldlM_logRange, bootLoop_eq _ _ h] at hlog
    have hk : 1 ≤ k := by
      by_contra hlt
      rw [if_neg fun h => hlt h.1] at hlog
      cases hlog
    rw [if_pos ⟨hk, hle⟩] at hlog
    refine ⟨⟨hk, hle⟩, ?_⟩
    cases hes : memoryMap m page k with
    | nil =>
        rw [hes] at hlen
        exact absurd hlen (by simp only [List.length_nil]; omega)
    | cons e es =>
        rw [hes, List.tail_cons] at hlog
        rw [hes] at hcalls
        have hchecked : overflowChecks = true → ∀ e ∈ es, e.usable = true → e.Fits := by
          rintro rfl e he husable
          by_contra hfits
          rw [foldlM_addEntry_eq_none _ he husable hfits] at hlog
          cases hlog
        rw [foldlM_addEntry _ hchecked, foldlM_logRange] at hlog
        obtain rfl : callsFor es = calls := by simpa using hlog
        have hfirst : e.usable = false := by
          by_contra husable
          rw [Bool.not_eq_false] at husable
          have := congrArg List.length hcalls
          rw [List.length_map, length_freeRanges] at this
          simp [callsFor, husable] at this
        have hrest : freeRanges (e :: es) = freeRanges es := by simp [freeRanges, hfirst]
        rw [hrest, map_callsFor_iff] at hcalls
        refine ⟨fun e' he' => ?_, List.forall_mem_cons.mpr ⟨fun husable => ?_, hcalls⟩⟩
        · obtain rfl : e = e' := Option.some.inj he'
          exact hfirst
        · rw [hfirst] at husable
          cases husable
  · rintro ⟨hk, hfirst, hfits⟩
    refine ⟨by rw [memoryMappings_eq h, if_pos hk.2], callsFor (memoryMap m page k).tail, ?_,
      fun σ addToHeap heap => ?_⟩
    · rw [map_callsFor_iff.mpr fun e he => hfits e (List.mem_of_mem_tail he)]
      cases hes : memoryMap m page k with
      | nil => rfl
      | cons e es => simp [freeRanges, hfirst e (by rw [hes]; rfl)]
    · rw [bootLoop_eq _ _ h, if_pos hk]
      exact foldlM_addEntry _ (fun _ e he => hfits e (List.mem_of_mem_tail he)) heap

/-- A page at address `0` with two entries: the lowest 4096 bytes, and 64 kB from
`0x100000` on, both free. -/
def smallPage : Mem :=
  ((((Mem.store (fun _ => 0) 4 160).store 128 0).store 136 0x1001).store 144 0x100000).store 152
    0x10001

/-- The second range is handed over. -/
theorem memory_map_handed_over_iff_instance :
    freeRanges (memoryMap smallPage 0 2) = [(0x100000, 0x110000)] ∧
      HandedOver true smallPage 0 2 := by
  have hallowed : Allowed smallPage 0 2 := ⟨by decide +kernel, by decide⟩
  exact ⟨by decide +kernel, (memory_map_handed_over_iff hallowed).mpr
    ⟨by decide, by decide +kernel, by decide +kernel⟩⟩

/-- A page at address `0` that is full of entries. -/
def fullPage : Mem := Mem.store (fun _ => 0) 4 4096

/-- `memory_mappings` panics on a full page. -/
theorem memory_map_not_handed_over : ¬ ∀ (overflowChecks : Bool) (m : Mem) (page k : ℕ),
    Allowed m page k → HandedOver overflowChecks m page k := by
  intro h
  have hallowed : Allowed fullPage 0 248 := ⟨by decide +kernel, by decide⟩
  have hmap := (h false fullPage 0 248 hallowed).mappings
  rw [memoryMappings_eq hallowed, if_neg (by decide)] at hmap
  cases hmap

end ParaOS.Paraos

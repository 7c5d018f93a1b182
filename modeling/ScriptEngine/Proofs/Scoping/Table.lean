import ScriptEngine.Proofs.Scoping.Blocks
import ScriptEngine.Scope.Table
/-!
The symbol table against the blocks of the text. A look-up finds a name if and only if it is in view,
and tells by its storage whether the name can be assigned to.
-/
namespace ScriptEngine.Scoping

variable {Γ : Blocks} {t t' : SymbolTable} {f : ScopeFrame} {fs fs' : List ScopeFrame}
  {blocks : List (List String)} {functions : List (List (List String))} {names : List String}
  {storage : Storage} {x : String} {b : ScopeBlock} {σ : Symbol}

/-- A table's block has just these names, all of one storage. -/
def BlockFits (storage : Storage) (names : List String) (b : ScopeBlock) : Prop :=
  ∀ x, if x ∈ names then ∃ i, b[x]? = some ⟨x, storage, i⟩ else b[x]? = none

/-- A frame has the blocks of a function, or those outside. -/
def FrameFits (storage : Storage) (blocks : List (List String)) (f : ScopeFrame) : Prop :=
  List.Forall₂ (BlockFits storage) blocks (f.block :: f.outer)

/-- The frames of the open functions, each with captures of variables around it. -/
def FramesFit : List (List (List String)) → List ScopeFrame → Prop
  | [], [] => True
  | blocks :: around, f :: fs => FrameFits .frame blocks f ∧
    (∀ σ ∈ f.free, σ.name ∈ around.flatten.flatten) ∧ FramesFit around fs
  | _, _ => False

/-- A symbol table has the blocks of the text. -/
structure Fits (Γ : Blocks) (t : SymbolTable) : Prop where
  functions : FramesFit Γ.functions t.functions
  outside : FrameFits .global Γ.outside t.outside
  builtins : ∀ x, x ∈ Γ.builtins ↔ ∃ i, t.builtins[x]? = some i

theorem BlockFits.contains (h : BlockFits storage names b) (x : String) :
    b.contains x = true ↔ x ∈ names := by
  have hx := h x
  rw [← Std.TreeMap.isSome_getElem?_eq_contains]
  split at hx
  · rename_i hmem
    obtain ⟨i, hi⟩ := hx
    simp [hi, hmem]
  · rename_i hmem
    simp [hx, hmem]

theorem BlockFits.insert (h : BlockFits storage names b) (x : String) (i : Nat) :
    BlockFits storage (x :: names) (b.insert x ⟨x, storage, i⟩) := by
  intro y
  rw [Std.TreeMap.getElem?_insert]
  by_cases hy : x = y
  · subst hy
    simp
  · have hne : ¬ compare x y = .eq := fun he => hy (Std.LawfulEqCmp.eq_of_compare he)
    have hmem : y ∈ x :: names ↔ y ∈ names := by simp [Ne.symm hy]
    simp only [hne, if_false, hmem]
    exact h y

theorem blockFits_empty : BlockFits storage [] ∅ := fun _ => by simp

theorem FrameFits.ne_nil (h : FrameFits storage blocks f) :
    ∃ names rest, blocks = names :: rest ∧ BlockFits storage names f.block ∧
      List.Forall₂ (BlockFits storage) rest f.outer := by
  cases h with
  | cons hblock hrest => exact ⟨_, _, rfl, hblock, hrest⟩

/-- A look-up in a frame finds the names of its blocks. -/
theorem FrameFits.lookup (h : FrameFits storage blocks f) (x : String) :
    if x ∈ blocks.flatten then ∃ i, f.lookup? x = some ⟨x, storage, i⟩
    else f.lookup? x = none := by
  unfold ScopeFrame.lookup?
  unfold FrameFits at h
  generalize f.block :: f.outer = bs at h
  induction h with
  | nil => simp
  | @cons names b blocks bs hblock _ ih =>
    have hx := hblock x
    rw [List.findSome?_cons, List.flatten_cons]
    by_cases hmem : x ∈ names
    · rw [if_pos hmem] at hx
      obtain ⟨i, hi⟩ := hx
      rw [if_pos (List.mem_append_left _ hmem), hi]
      exact ⟨i, rfl⟩
    · rw [if_neg hmem] at hx
      rw [hx]
      simpa [hmem] using ih

/-- Where a name in view of some functions is kept. -/
def keptIn (Γ : Blocks) (x : String) : List (List (List String)) → Storage
  | [] => if x ∈ Γ.outside.flatten then .global else .builtin
  | blocks :: around =>
    if x ∈ blocks.flatten then .frame
    else if x ∈ around.flatten.flatten then .free
    else if x ∈ Γ.outside.flatten then .global else .builtin

theorem mem_variables : x ∈ (blocks :: functions).flatten.flatten ↔
    x ∈ blocks.flatten ∨ x ∈ functions.flatten.flatten := by
  rw [List.flatten_cons, List.flatten_append, List.mem_append]

/-- A name is a variable of some functions if and only if it is kept in their frames. -/
theorem keptIn_cases (Γ : Blocks) (x : String) (functions : List (List (List String))) :
    (x ∈ functions.flatten.flatten ∧
      (keptIn Γ x functions = .frame ∨ keptIn Γ x functions = .free)) ∨
    (x ∉ functions.flatten.flatten ∧ keptIn Γ x functions = keptIn Γ x [] ∧
      (keptIn Γ x functions = .global ∨ keptIn Γ x functions = .builtin)) := by
  have houtside : keptIn Γ x [] = .global ∨ keptIn Γ x [] = .builtin := by
    by_cases hx : x ∈ Γ.outside.flatten
    · exact Or.inl (if_pos hx)
    · exact Or.inr (if_neg hx)
  cases functions with
  | nil => exact Or.inr ⟨by simp, rfl, houtside⟩
  | cons blocks around =>
    rw [mem_variables]
    by_cases hown : x ∈ blocks.flatten
    · exact Or.inl ⟨Or.inl hown, Or.inl (if_pos hown)⟩
    · by_cases haround : x ∈ around.flatten.flatten
      · exact Or.inl ⟨Or.inr haround, Or.inr ((if_neg hown).trans (if_pos haround))⟩
      · have hsame : keptIn Γ x (blocks :: around) = keptIn Γ x [] :=
          (if_neg hown).trans (if_neg haround)
        exact Or.inr ⟨fun h => h.elim hown haround, hsame, hsame ▸ houtside⟩

theorem FramesFit.capture {f : ScopeFrame} (h : FramesFit (blocks :: functions) (f :: fs))
    (hfs : FramesFit functions fs') (hname : σ.name ∈ functions.flatten.flatten) :
    FramesFit (blocks :: functions) ({ f with free := f.free ++ [σ] } :: fs') := by
  refine ⟨h.1, fun τ hτ => ?_, hfs⟩
  rcases List.mem_append.mp hτ with hτ | hτ
  · exact h.2.1 τ hτ
  · rw [List.mem_singleton.mp hτ]
    exact hname

/-- What a look-up through some functions comes to. -/
def Found (Γ : Blocks) (x : String) (functions : List (List (List String))) :
    Option (Symbol × List ScopeFrame) → Prop
  | some (σ, fs) => FramesFit functions fs ∧ σ.name = x ∧ σ.storage = keptIn Γ x functions ∧
    (x ∈ functions.flatten.flatten ∨ x ∈ Γ.outside.flatten ∨ x ∈ Γ.builtins)
  | none => x ∉ functions.flatten.flatten ∧ x ∉ Γ.outside.flatten ∧ x ∉ Γ.builtins

theorem Fits.resolve_outside (h : Fits Γ t) (x : String) : Found Γ x [] (t.resolveIn x []) := by
  have hlookup := h.outside.lookup x
  unfold SymbolTable.resolveIn
  by_cases hmem : x ∈ Γ.outside.flatten
  · rw [if_pos hmem] at hlookup
    obtain ⟨i, hi⟩ := hlookup
    rw [hi]
    exact ⟨trivial, rfl, by simp [keptIn, hmem], Or.inr (Or.inl hmem)⟩
  · rw [if_neg hmem] at hlookup
    rw [hlookup]
    cases hb : t.builtins[x]? with
    | none =>
      have hx : x ∉ Γ.builtins := fun hx => by
        obtain ⟨i, hi⟩ := (h.builtins x).mp hx
        rw [hb] at hi
        cases hi
      exact ⟨by simp, hmem, hx⟩
    | some i =>
      exact ⟨trivial, rfl, by simp [keptIn, hmem], Or.inr (Or.inr ((h.builtins x).mpr ⟨i, hb⟩))⟩

/-- A look-up through some functions finds what is in view of them, and their frames stay as they
are but for captures. -/
theorem Fits.resolveIn (h : Fits Γ t) (x : String) (hfit : FramesFit functions fs) :
    Found Γ x functions (t.resolveIn x fs) := by
  induction functions generalizing fs with
  | nil =>
    cases fs with
    | nil => exact h.resolve_outside x
    | cons f fs => exact hfit.elim
  | cons blocks around ih =>
    cases fs with
    | nil => exact hfit.elim
    | cons f fs =>
      have hlookup := hfit.1.lookup x
      unfold SymbolTable.resolveIn
      by_cases hmem : x ∈ blocks.flatten
      · rw [if_pos hmem] at hlookup
        obtain ⟨i, hi⟩ := hlookup
        rw [hi]
        exact ⟨hfit, rfl, (if_pos hmem).symm, Or.inl (mem_variables.mpr (Or.inl hmem))⟩
      · rw [if_neg hmem] at hlookup
        rw [hlookup]
        dsimp only
        cases hidx : f.free.findIdx? (fun σ => decide (σ.name = x)) with
        | some i =>
          -- A name that was captured before is a variable around the function.
          have haround : x ∈ around.flatten.flatten := by
            obtain ⟨hlt, hname, -⟩ := List.findIdx?_eq_some_iff_getElem.mp hidx
            have := hfit.2.1 _ (List.getElem_mem hlt)
            rwa [of_decide_eq_true hname] at this
          exact ⟨hfit, rfl, ((if_neg hmem).trans (if_pos haround)).symm,
            Or.inl (mem_variables.mpr (Or.inr haround))⟩
        | none =>
          have hfound := ih hfit.2.2
          cases hin : t.resolveIn x fs with
          | none =>
            rw [hin] at hfound
            obtain ⟨haround, hrest⟩ := hfound
            exact ⟨fun hx => (mem_variables.mp hx).elim hmem haround, hrest⟩
          | some found =>
            obtain ⟨σ, fs₁⟩ := found
            rw [hin] at hfound
            obtain ⟨hfit₁, hname, hstorage, hview⟩ := hfound
            have hkept : keptIn Γ x (blocks :: around) =
                if x ∈ around.flatten.flatten then .free else keptIn Γ x [] := if_neg hmem
            rcases keptIn_cases Γ x around with ⟨haround, hcase⟩ | ⟨haround, hsame, hcase⟩
            · have hview' : x ∈ (blocks :: around).flatten.flatten := mem_variables.mpr (Or.inr haround)
              rw [if_pos haround] at hkept
              rcases hcase with hcase | hcase <;> rw [hcase] at hstorage <;> dsimp only <;>
                rw [hstorage] <;>
                exact ⟨hfit.capture hfit₁ (hname ▸ haround), rfl, hkept.symm, Or.inl hview'⟩
            · have hfit' : FramesFit (blocks :: around) (f :: fs₁) := ⟨hfit.1, hfit.2.1, hfit₁⟩
              have hview' : x ∈ (blocks :: around).flatten.flatten ∨ x ∈ Γ.outside.flatten ∨
                  x ∈ Γ.builtins := Or.inr (hview.resolve_left haround)
              rw [if_neg haround, ← hsame, ← hstorage] at hkept
              rcases hcase with hcase | hcase <;> rw [hcase] at hstorage <;> dsimp only <;>
                rw [hstorage] <;> exact ⟨hfit', hname, hkept.symm, hview'⟩

theorem inView_iff (Γ : Blocks) (x : String) : Γ.InView x ↔
    x ∈ Γ.functions.flatten.flatten ∨ x ∈ Γ.outside.flatten ∨ x ∈ Γ.builtins := by
  unfold Blocks.InView Blocks.own Blocks.around
  cases Γ.functions with
  | nil => simp
  | cons blocks around =>
    rw [mem_variables, List.headD_cons, List.tail_cons, or_assoc]

/-- A name can be assigned to if it is kept in a slot of the frame or in a global one. -/
theorem assignable_iff (Γ : Blocks) (x : String) : Γ.Assignable x ↔
    keptIn Γ x Γ.functions = .frame ∨ keptIn Γ x Γ.functions = .global := by
  unfold Blocks.Assignable Blocks.own Blocks.around
  cases Γ.functions with
  | nil => by_cases hx : x ∈ Γ.outside.flatten <;> simp [keptIn, hx]
  | cons blocks around =>
    rw [List.headD_cons, List.tail_cons]
    by_cases hown : x ∈ blocks.flatten
    · have hkept : keptIn Γ x (blocks :: around) = .frame := if_pos hown
      simp [hkept, hown]
    · by_cases haround : x ∈ around.flatten.flatten
      · have hkept : keptIn Γ x (blocks :: around) = .free :=
          (if_neg hown).trans (if_pos haround)
        simp [hkept, hown, haround]
      · have hkept : keptIn Γ x (blocks :: around) = keptIn Γ x [] :=
          (if_neg hown).trans (if_neg haround)
        rw [hkept]
        by_cases hx : x ∈ Γ.outside.flatten
        · simp [keptIn, haround, hx]
        · simp [keptIn, hown, hx]

/-- A name is found if and only if it is in view. -/
theorem Fits.resolve (h : Fits Γ t) (x : String) :
    match t.resolve x with
    | (some σ, t') => Fits Γ t' ∧ Γ.InView x ∧ σ.storage = keptIn Γ x Γ.functions
    | (none, _) => ¬ Γ.InView x := by
  have hfound := h.resolveIn x h.functions
  unfold SymbolTable.resolve
  cases hin : t.resolveIn x t.functions with
  | none =>
    rw [hin] at hfound
    exact fun hview => (((inView_iff Γ x).mp hview).elim hfound.1
      fun hview => hview.elim hfound.2.1 hfound.2.2)
  | some found =>
    rw [hin] at hfound
    obtain ⟨hfit, -, hstorage, hview⟩ := hfound
    exact ⟨⟨hfit, h.outside, h.builtins⟩, (inView_iff Γ x).mpr hview, hstorage⟩

/-- The frame in force, with the storage of what is defined in it. -/
theorem Fits.current (h : Fits Γ t) :
    FrameFits (if Γ.functions = [] then .global else .frame) Γ.current t.current := by
  have hfunctions := h.functions
  unfold Blocks.current SymbolTable.current
  match hΓ : Γ.functions, ht : t.functions with
  | [], [] => exact h.outside
  | blocks :: around, f :: fs =>
    rw [hΓ, ht] at hfunctions
    exact hfunctions.1
  | [], f :: fs | blocks :: around, [] =>
    rw [hΓ, ht] at hfunctions
    exact hfunctions.elim

/-- The frame in force may change for one with other blocks. -/
theorem Fits.setCurrent (h : Fits Γ t)
    (hf : FrameFits (if Γ.functions = [] then .global else .frame) blocks f)
    (hfree : f.free = t.current.free) : Fits (Γ.withCurrent blocks) (t.setCurrent f) := by
  have hfunctions := h.functions
  unfold Blocks.withCurrent SymbolTable.setCurrent
  unfold SymbolTable.current at hfree
  match hΓ : Γ.functions, ht : t.functions with
  | [], [] =>
    rw [if_pos hΓ] at hf
    exact ⟨trivial, hf, h.builtins⟩
  | own :: around, f :: fs =>
    rw [hΓ, ht] at hfunctions
    rw [if_neg (by simp [hΓ])] at hf
    rw [ht] at hfree
    exact ⟨⟨hf, hfree ▸ hfunctions.2.1, hfunctions.2.2⟩, h.outside, h.builtins⟩
  | [], f :: fs | own :: around, [] =>
    rw [hΓ, ht] at hfunctions
    exact hfunctions.elim

/-- Slots and marks play no role. -/
theorem Fits.congr (h : Fits Γ t) (hfunctions : t'.functions = t.functions)
    (houtside : t'.outside = t.outside) (hbuiltins : t'.builtins = t.builtins) : Fits Γ t' :=
  ⟨hfunctions ▸ h.functions, houtside ▸ h.outside, hbuiltins ▸ h.builtins⟩

theorem Fits.definedInBlock (h : Fits Γ t) (x : String) :
    t.definedInBlock x = true ↔ x ∈ Γ.innermost := by
  obtain ⟨names, rest, hblocks, hblock, -⟩ := h.current.ne_nil
  unfold Blocks.innermost
  rw [hblocks]
  exact hblock.contains x

/-- The frames of a table are those of as many functions. -/
theorem Fits.functions_eq_nil (h : Fits Γ t) : Γ.functions = [] ↔ t.functions = [] := by
  have hfunctions := h.functions
  match hΓ : Γ.functions, ht : t.functions with
  | [], [] => simp
  | _ :: _, _ :: _ => simp
  | [], _ :: _ | _ :: _, [] =>
    rw [hΓ, ht] at hfunctions
    exact hfunctions.elim

theorem Fits.define (h : Fits Γ t) (x : String) : Fits (Γ.define x) (t.define x).2 := by
  obtain ⟨names, rest, hblocks, hblock, hrest⟩ := h.current.ne_nil
  have hcurrent : Γ.define x = Γ.withCurrent ((x :: names) :: rest) := by
    unfold Blocks.define Blocks.innermost
    rw [hblocks, List.headD_cons, List.tail_cons]
  rw [hcurrent]
  unfold SymbolTable.current at hblock hrest
  match ht : t.functions with
  | [] =>
    have hΓ := h.functions_eq_nil.mpr ht
    simp only [hΓ, ht, if_true] at hblock hrest
    have hset : Fits (Γ.withCurrent ((x :: names) :: rest))
        (t.setCurrent (t.outside.add ⟨x, .global, t.globals⟩)) := h.setCurrent
      (by rw [if_pos hΓ]; exact .cons (hblock.insert x _) hrest) (by simp [SymbolTable.current, ht, ScopeFrame.add])
    simp only [SymbolTable.setCurrent, SymbolTable.define, ht] at hset ⊢
    exact hset.congr rfl rfl rfl
  | f :: fs =>
    have hΓ : Γ.functions ≠ [] := fun he => by simp [h.functions_eq_nil.mp he] at ht
    simp only [hΓ, ht, if_false] at hblock hrest
    have hset : Fits (Γ.withCurrent ((x :: names) :: rest)) (t.setCurrent
        ({ f with nextSlot := f.nextSlot + 1, slots := max f.slots (f.nextSlot + 1) }.add
          ⟨x, .frame, f.nextSlot⟩)) := h.setCurrent
      (by rw [if_neg hΓ]; exact .cons (hblock.insert x _) hrest) (by simp [SymbolTable.current, ht, ScopeFrame.add])
    simp only [SymbolTable.setCurrent, SymbolTable.define, ht] at hset ⊢
    exact hset

/-- The storage of a name that is defined. -/
theorem define_storage (t : SymbolTable) (x : String) :
    (t.define x).1.storage = if t.functions = [] then .global else .frame := by
  unfold SymbolTable.define
  cases t.functions <;> rfl

theorem Fits.enterBlock (h : Fits Γ t) : Fits Γ.enter t.enterBlock := by
  have hset := h.setCurrent (f := { t.current with block := ∅, outer := t.current.block :: t.current.outer })
    (.cons blockFits_empty h.current) rfl
  unfold SymbolTable.enterBlock Blocks.enter
  exact hset.congr rfl rfl rfl

theorem Fits.leaveBlock (h : Fits (Γ.withCurrent (names :: Γ.current)) t) (hne : Γ.current ≠ []) :
    Fits Γ t.leaveBlock := by
  have hcurrent := h.current
  rw [Blocks.current_withCurrent] at hcurrent
  cases hcurrent with
  | cons _ hrest =>
    unfold SymbolTable.leaveBlock
    match hΓ : Γ.current, hf : t.current.outer with
    | [], _ => exact absurd hΓ hne
    | _ :: _, [] =>
      rw [hΓ, hf] at hrest
      cases hrest
    | _ :: _, b :: outer =>
      rw [hf] at hrest
      have hset (slot : Nat) := h.setCurrent
        (f := { t.current with block := b, outer := outer, nextSlot := slot }) hrest rfl
      simp only [Blocks.withCurrent_withCurrent, Blocks.withCurrent_current] at hset
      simp only [hf]
      cases t.marks with
      | nil => exact hset t.current.nextSlot
      | cons mark marks => exact (hset mark).congr rfl rfl rfl

theorem Fits.enterFunction (h : Fits Γ t) : Fits (Γ.function []) t.enterFunction :=
  ⟨⟨.cons blockFits_empty .nil, by simp [ScopeFrame.empty], h.functions⟩, h.outside, h.builtins⟩

theorem Fits.leaveFunction (h : Fits Γ t) :
    Fits { Γ with functions := Γ.functions.tail } t.leaveFunction.2 := by
  have hfunctions := h.functions
  unfold SymbolTable.leaveFunction
  match hΓ : Γ.functions, ht : t.functions with
  | [], [] => exact ⟨by simp [ht, FramesFit], h.outside, h.builtins⟩
  | _ :: _, _ :: _ =>
    rw [hΓ, ht] at hfunctions
    exact ⟨hfunctions.2.2, h.outside, h.builtins⟩
  | [], _ :: _ | _ :: _, [] =>
    rw [hΓ, ht] at hfunctions
    exact hfunctions.elim

end ScriptEngine.Scoping

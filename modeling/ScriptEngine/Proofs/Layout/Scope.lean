import ScriptEngine.Proofs.Layout.Names
/-!
The symbol table against the names that the text puts in force. Looking a name up may add captures
to every open function; nothing else changes but by definitions.
-/
namespace ScriptEngine

/-- The names that a function captures so far. -/
def ScopeFrame.captured (f : ScopeFrame) : List String := f.free.map (·.name)

namespace Layout

/-- A frame knows the variables of a function and no others. -/
structure FrameFits (vars : List String) (f : ScopeFrame) : Prop where
  lookup : ∀ x, f.lookup? x = (slotOf x vars).map (⟨x, .frame, ·⟩)
  next : f.nextSlot = vars.length
  slots : vars.length ≤ f.slots
  limit : f.slots ≤ 256

/-- A captured symbol is what its name means in the function around. -/
def Owned (σ : Symbol) : List (List String) → List ScopeFrame → Prop
  | vars :: _, f :: _ => Names.own f.captured vars σ.name = some (σ.storage, σ.index)
  | _, _ => False

def FramesFit : List (List String) → List ScopeFrame → Prop
  | [], [] => True
  | vars :: around, f :: fs => FrameFits vars f ∧ (∀ σ ∈ f.free, Owned σ around fs) ∧
    FramesFit around fs
  | _, _ => False

/-- A symbol table puts in force the names of the text. -/
structure Fits (Γ : Names) (t : SymbolTable) : Prop where
  frames : FramesFit Γ.functions t.functions
  outside : ∀ x, t.outside.lookup? x = (Γ.globals.lookup x).map (⟨x, .global, ·⟩)
  cells : t.globals = Γ.cell
  bound : ∀ x cell, Γ.globals.lookup x = some cell → cell < Γ.cell
  builtins : ∀ x, t.builtins[x]? = Builtin.all.findIdx? (·.name = x)
  slots : t.outside.slots = 0

/-- Functions capture the names of `used` that are variables around them, and nothing else
changes. -/
def Grow (used : String → Prop) : List (List String) → List ScopeFrame → List ScopeFrame → Prop
  | [], [], [] => True
  | vars :: around, f :: fs, f' :: fs' =>
    (∃ more, f' = { f with free := f.free ++ more }) ∧
    (∀ x, x ∈ f'.captured ↔ x ∈ f.captured ∨ (used x ∧ x ∉ vars ∧ x ∈ around.flatten)) ∧
    Grow (fun x => used x ∧ x ∉ vars) around fs fs'
  | _, _, _ => False

variable {used used' : String → Prop} {functions : List (List String)}
  {fs fs' fs'' : List ScopeFrame} {f f' : ScopeFrame} {vars : List String} {x : String}
  {t t' : SymbolTable} {Γ : Names}

theorem FrameFits.with_free (h : FrameFits vars f) (free : List Symbol) :
    FrameFits vars { f with free } := ⟨h.lookup, h.next, h.slots, h.limit⟩

theorem FramesFit.length (h : FramesFit functions fs) : fs.length = functions.length := by
  induction functions generalizing fs with
  | nil =>
    cases fs with
    | nil => rfl
    | cons f fs => exact h.elim
  | cons vars around ih =>
    cases fs with
    | nil => exact h.elim
    | cons f fs => simp [ih h.2.2]

theorem Grow.congr (h : Grow used functions fs fs') (hu : ∀ x, used x ↔ used' x) :
    Grow used' functions fs fs' := by
  have : used = used' := funext fun x => propext (hu x)
  exact this ▸ h

/-- Nothing is captured if no name in use is a variable still to be captured. -/
theorem Grow.refl (hfit : FramesFit functions fs)
    (hu : ∀ x, used x → x ∉ functions.flatten) : Grow used functions fs fs := by
  induction functions generalizing fs used with
  | nil =>
    cases fs with
    | nil => trivial
    | cons f fs => exact hfit.elim
  | cons vars around ih =>
    cases fs with
    | nil => exact hfit.elim
    | cons f fs =>
      refine ⟨⟨[], by simp⟩, fun x => ⟨Or.inl, ?_⟩, ih hfit.2.2 fun x hx => ?_⟩
      · rintro (h | ⟨hx, _, ha⟩)
        · exact h
        · exact absurd (List.mem_append_right vars ha) (hu x hx)
      · exact fun ha => hu x hx.1 (List.mem_append_right vars ha)

theorem Grow.trans (h : Grow used functions fs fs') (h' : Grow used' functions fs' fs'') :
    Grow (fun x => used x ∨ used' x) functions fs fs'' := by
  induction functions generalizing fs fs' fs'' used used' with
  | nil =>
    match fs, fs', fs'', h, h' with
    | [], [], [], _, _ => trivial
  | cons vars around ih =>
    match fs, fs', fs'', h, h' with
    | f :: fs, f' :: fs', f'' :: fs'', ⟨⟨more, hf⟩, hx, h⟩, ⟨⟨more', hf'⟩, hx', h'⟩ =>
      refine ⟨⟨more ++ more', by simp [hf, hf']⟩, fun x => ?_, (ih h h').congr fun x => ?_⟩
      · rw [hx', hx]
        tauto
      · tauto

/-- A variable that a function knows already has been captured by every function it goes through. -/
theorem Grow.refl_known (hfit : FramesFit (vars :: functions) (f :: fs))
    (hx : x ∈ vars ∨ x ∈ f.captured) : Grow (· = x) (vars :: functions) (f :: fs) (f :: fs) := by
  induction functions generalizing vars f fs with
  | nil =>
    cases fs with
    | nil => exact ⟨⟨[], by simp⟩, by simp, trivial⟩
    | cons f fs => exact hfit.2.2.elim
  | cons vars' around ih =>
    cases fs with
    | nil => exact hfit.2.2.elim
    | cons f' fs =>
      refine ⟨⟨[], by simp⟩, fun y => ⟨Or.inl, ?_⟩, ?_⟩
      · rintro (h | ⟨rfl, hn, _⟩)
        · exact h
        · exact hx.resolve_left hn
      · by_cases hv : x ∈ vars
        · refine Grow.refl hfit.2.2 fun y hy => ?_
          exact absurd (hy.1 ▸ hv) hy.2
        · obtain ⟨σ, hσ, hname⟩ := List.mem_map.mp (hx.resolve_left hv)
          have hknown := Names.mem_vars_or_captured (hfit.2.1 σ hσ)
          rw [hname] at hknown
          refine (ih hfit.2.2 hknown).congr fun y => ⟨?_, fun hy => hy.1⟩
          rintro rfl
          exact ⟨rfl, hv⟩

/-- Captures stay what they are when the function around captures more. -/
theorem Owned.grow {σ : Symbol} (h : Owned σ functions fs)
    (hgrow : Grow used functions fs fs') : Owned σ functions fs' := by
  match functions, fs, fs', h, hgrow with
  | vars :: around, f :: fs, f' :: fs', h, ⟨⟨more, hf⟩, _, _⟩ =>
    have := Names.own_append h (more.map (·.name))
    simpa [Owned, hf, ScopeFrame.captured] using this

theorem captured_subset (hfit : FramesFit (vars :: functions) (f :: fs)) (hx : x ∈ f.captured) :
    x ∈ functions.flatten := by
  induction functions generalizing vars f fs with
  | nil =>
    obtain ⟨σ, hσ, rfl⟩ := List.mem_map.mp hx
    exact (hfit.2.1 σ hσ).elim
  | cons vars' around ih =>
    cases fs with
    | nil => exact hfit.2.2.elim
    | cons f' fs =>
      obtain ⟨σ, hσ, rfl⟩ := List.mem_map.mp hx
      rcases Names.mem_vars_or_captured (hfit.2.1 σ hσ) with hv | hc
      · exact List.mem_append_left _ hv
      · exact List.mem_append_right _ (ih hfit.2.2 hc)

/-- What the innermost of some frames captures. -/
def capturedIn : List ScopeFrame → List String
  | [] => []
  | f :: _ => f.captured

theorem Fits.resolve_outside (h : Fits Γ t) {s : Symbol}
    (hs : t.resolveIn x [] = some (s, fs')) :
    s.name = x ∧ fs' = [] ∧ Γ.outer x = some (s.storage, s.index) := by
  simp only [SymbolTable.resolveIn, h.outside, h.builtins] at hs
  unfold Names.outer
  cases hg : Γ.globals.lookup x with
  | some cell =>
    simp only [hg, Option.map_some, Option.some.injEq, Prod.mk.injEq] at hs
    obtain ⟨rfl, rfl⟩ := hs
    exact ⟨rfl, rfl, rfl⟩
  | none =>
    simp only [hg, Option.map_none] at hs
    obtain ⟨i, hi, hs⟩ := Option.map_eq_some_iff.mp hs
    simp only [Prod.mk.injEq] at hs
    obtain ⟨rfl, rfl⟩ := hs
    exact ⟨rfl, rfl, by simp [hi]⟩

/-- A name that is found outside of the functions is none of their variables. -/
theorem outer_of_resolve {captured : List String} {storage : Storage} {i : Nat}
    (h : Γ.resolve captured x = some (storage, i)) (hs : storage = .global ∨ storage = .builtin) :
    ¬ Γ.IsVariable x ∧ Γ.outer x = some (storage, i) := by
  unfold Names.resolve at h
  unfold Names.IsVariable
  cases hf : Γ.functions with
  | nil =>
    simp only [hf] at h
    exact ⟨by simp, h⟩
  | cons vars around =>
    simp only [hf] at h
    split at h
    · rename_i found hown
      have := Names.storage_own hown
      obtain rfl : found = (storage, i) := by simpa using h
      rcases this with rfl | rfl <;> simp at hs
    · rename_i hown
      split at h
      · simp at h
      · rename_i hx
        refine ⟨fun hn => ?_, h⟩
        rcases List.mem_append.mp hn with hn | hn
        · exact (Names.own_eq_none.mp hown).1 hn
        · exact hx hn

/-- A name that is found in a function's frame belongs to the innermost one. -/
theorem own_of_resolve {captured : List String} {storage : Storage} {i : Nat}
    (h : Γ.resolve captured x = some (storage, i)) (hs : storage = .frame ∨ storage = .free) :
    ∃ vars around, Γ.functions = vars :: around ∧
      Names.own captured vars x = some (storage, i) := by
  have houter : Γ.outer x ≠ some (storage, i) := fun h => by
    rcases Names.storage_outer h with rfl | rfl <;> simp at hs
  unfold Names.resolve at h
  cases hf : Γ.functions with
  | nil =>
    simp only [hf] at h
    exact absurd h houter
  | cons vars around =>
    simp only [hf] at h
    refine ⟨vars, around, rfl, ?_⟩
    split at h
    · rename_i found hown
      rw [hown, h]
    · split at h
      · simp at h
      · exact absurd h houter

theorem captured_append (f : ScopeFrame) (more : List Symbol) :
    ({ f with free := f.free ++ more } : ScopeFrame).captured =
      f.captured ++ more.map (·.name) := by
  simp [ScopeFrame.captured]

/-- A variable of a function around is captured. -/
theorem Fits.capture {around : List (List String)} {σ : Symbol}
    (hfit : FramesFit (vars :: around) (f :: fs)) (hx : x ∉ vars) (hc : x ∉ f.captured)
    (hname : σ.name = x) (hfit' : FramesFit around fs') (hgrow : Grow (· = x) around fs fs')
    (hres : ({ Γ with functions := around } : Names).resolve (capturedIn fs') x =
      some (σ.storage, σ.index)) (hs : σ.storage = .frame ∨ σ.storage = .free) :
    FramesFit (vars :: around) ({ f with free := f.free ++ [σ] } :: fs') ∧
      Grow (· = x) (vars :: around) (f :: fs) ({ f with free := f.free ++ [σ] } :: fs') := by
  obtain ⟨vars', around', hfunctions, hown⟩ := own_of_resolve hres hs
  simp only at hfunctions
  subst hfunctions
  cases fs' with
  | nil => exact hfit'.elim
  | cons f' fs' =>
    have hvariable : x ∈ (vars' :: around').flatten := by
      rcases Names.mem_vars_or_captured hown with hv | hc
      · exact List.mem_append_left _ hv
      · exact List.mem_append_right _ (captured_subset hfit' hc)
    refine ⟨⟨hfit.1.with_free _, ?_, hfit'⟩, ⟨⟨[σ], rfl⟩, fun y => ?_, ?_⟩⟩
    · intro τ hτ
      rcases List.mem_append.mp hτ with hτ | hτ
      · exact (hfit.2.1 τ hτ).grow hgrow
      · rw [List.mem_singleton.mp hτ]
        simpa [Owned, hname, capturedIn] using hown
    · rw [captured_append, List.mem_append, List.map_singleton, List.mem_singleton, hname]
      constructor
      · rintro (hy | rfl)
        · exact Or.inl hy
        · exact Or.inr ⟨rfl, hx, hvariable⟩
      · rintro (hy | ⟨rfl, _, _⟩)
        · exact Or.inl hy
        · exact Or.inr rfl
    · refine hgrow.congr fun y => ⟨?_, fun hy => hy.1⟩
      rintro rfl
      exact ⟨rfl, hx⟩

/-- A name is found as the text has it; the functions between its use and its definition capture
it. -/
theorem Fits.resolveIn (h : Fits Γ t) {s : Symbol} (hfit : FramesFit functions fs)
    (hs : t.resolveIn x fs = some (s, fs')) :
    s.name = x ∧ FramesFit functions fs' ∧ Grow (· = x) functions fs fs' ∧
      ({ Γ with functions } : Names).resolve (capturedIn fs') x = some (s.storage, s.index) := by
  induction functions generalizing fs fs' s with
  | nil =>
    cases fs with
    | cons f fs => exact hfit.elim
    | nil =>
      obtain ⟨hname, rfl, houter⟩ := h.resolve_outside hs
      exact ⟨hname, trivial, trivial, houter⟩
  | cons vars around ih =>
    cases fs with
    | nil => exact hfit.elim
    | cons f fs =>
      unfold SymbolTable.resolveIn at hs
      rw [hfit.1.lookup] at hs
      cases hslot : slotOf x vars with
      | some i =>
        have hx : x ∈ vars := slotOf_isSome.mp ⟨i, hslot⟩
        simp only [hslot, Option.map_some, Option.some.injEq, Prod.mk.injEq] at hs
        obtain ⟨rfl, rfl⟩ := hs
        exact ⟨rfl, hfit, Grow.refl_known hfit (Or.inl hx), by simp [Names.resolve, Names.own, hslot]⟩
      | none =>
        have hx : x ∉ vars := slotOf_eq_none.mp hslot
        have hidx : f.free.findIdx? (fun σ => decide (σ.name = x)) = f.captured.idxOf? x := by
          simp only [ScopeFrame.captured, List.idxOf?, List.findIdx?_map]
          rfl
        simp only [hslot, Option.map_none, hidx] at hs
        cases hfound : f.captured.idxOf? x with
        | some i =>
          simp only [hfound, Option.some.injEq, Prod.mk.injEq] at hs
          obtain ⟨rfl, rfl⟩ := hs
          have hc : x ∈ f.captured := by
            by_contra hn
            simp [List.idxOf?_eq_none_iff.mpr hn] at hfound
          exact ⟨rfl, hfit, Grow.refl_known hfit (Or.inr hc),
            by simp [Names.resolve, Names.own, hslot, capturedIn, hfound]⟩
        | none =>
          have hc : x ∉ f.captured := List.idxOf?_eq_none_iff.mp hfound
          have hown : Names.own f.captured vars x = none := Names.own_eq_none.mpr ⟨hx, hc⟩
          simp only [hfound] at hs
          cases hin : t.resolveIn x fs with
          | none => simp [hin] at hs
          | some found =>
            obtain ⟨σ, fs₁⟩ := found
            obtain ⟨hname, hfit₁, hgrow, hres⟩ := ih hfit.2.2 hin
            simp only [hin] at hs
            by_cases hst : σ.storage = .frame ∨ σ.storage = .free
            · obtain ⟨hfit', hgrow'⟩ := Fits.capture hfit hx hc hname hfit₁ hgrow hres hst
              obtain ⟨rfl, rfl⟩ : ⟨x, .free, f.free.length⟩ = s ∧
                  { f with free := f.free ++ [σ] } :: fs₁ = fs' := by
                rcases hst with hst | hst <;> simpa [hst] using hs
              refine ⟨rfl, hfit', hgrow', ?_⟩
              have hlen : f.captured.length = f.free.length := by simp [ScopeFrame.captured]
              simp [Names.resolve, capturedIn, captured_append, hname,
                Names.own_append_self hown, hlen]
            · have hst' : σ.storage = .global ∨ σ.storage = .builtin := by
                cases hσ : σ.storage <;> simp_all
              obtain ⟨hout, houter⟩ := outer_of_resolve hres hst'
              obtain ⟨rfl, rfl⟩ : σ = s ∧ f :: fs₁ = fs' := by
                rcases hst' with hst' | hst' <;> simpa [hst'] using hs
              refine ⟨hname, ⟨hfit.1, fun τ hτ => (hfit.2.1 τ hτ).grow hgrow, hfit₁⟩,
                ⟨⟨[], by simp⟩, fun y => ⟨Or.inl, ?_⟩, ?_⟩, ?_⟩
              · rintro (hy | ⟨rfl, _, hy⟩)
                · exact hy
                · exact absurd hy hout
              · refine hgrow.congr fun y => ⟨?_, fun hy => hy.1⟩
                rintro rfl
                exact ⟨rfl, hx⟩
              · simp only [Names.resolve, capturedIn, hown]
                exact (if_neg hout).trans houter

/-- What becomes of the frame of the innermost function while its code is compiled. -/
structure FrameMoves (used : String → Prop) (around : List (List String)) (f f' : ScopeFrame) :
    Prop where
  outer : f'.outer = f.outer
  slots : f.slots ≤ f'.slots
  free : f.captured <+: f'.captured
  captured : ∀ x, x ∈ f'.captured ↔ x ∈ f.captured ∨ (used x ∧ x ∈ around.flatten)

/-- What becomes of a symbol table while code of one function, or outside of all functions, is
compiled; `used` has the names that the function does not define itself. -/
def Moves (used : String → Prop) (around? : Option (List (List String)))
    (t t' : SymbolTable) : Prop :=
  t'.marks = t.marks ∧
    match around?, t.functions, t'.functions with
    | none, [], [] => t'.outside.outer = t.outside.outer
    | some around, f :: fs, f' :: fs' => t'.outside = t.outside ∧ t'.globals = t.globals ∧
      FrameMoves used around f f' ∧ Grow used around fs fs'
    | _, _, _ => False

theorem FrameMoves.trans {around : List (List String)} {f'' : ScopeFrame}
    (h : FrameMoves used around f f') (h' : FrameMoves used' around f' f'') :
    FrameMoves (fun x => used x ∨ used' x) around f f'' := by
  refine ⟨h'.outer.trans h.outer, Nat.le_trans h.slots h'.slots, h.free.trans h'.free, fun x => ?_⟩
  rw [h'.captured, h.captured]
  tauto

variable {around? : Option (List (List String))} {t'' : SymbolTable}

theorem Moves.trans (h : Moves used around? t t') (h' : Moves used' around? t' t'') :
    Moves (fun x => used x ∨ used' x) around? t t'' := by
  refine ⟨h'.1.trans h.1, ?_⟩
  have h := h.2
  have h' := h'.2
  cases around? with
  | none =>
    match hf : t.functions, hf' : t'.functions, hf'' : t''.functions with
    | [], [], [] =>
      simp only [hf, hf', hf''] at h h' ⊢
      exact h'.trans h
    | _ :: _, _, _ | [], _ :: _, _ | [], [], _ :: _ => simp [hf, hf', hf''] at h h'
  | some around =>
    match hf : t.functions, hf' : t'.functions, hf'' : t''.functions with
    | f :: fs, f' :: fs', f'' :: fs'' =>
      simp only [hf, hf', hf''] at h h' ⊢
      exact ⟨h'.1.trans h.1, h'.2.1.trans h.2.1, h.2.2.1.trans h'.2.2.1,
        h.2.2.2.trans h'.2.2.2⟩
    | [], _, _ | _ :: _, [], _ | _ :: _, _ :: _, [] => simp [hf, hf', hf''] at h h'

theorem Moves.congr (h : Moves used around? t t') (hu : ∀ x, used x ↔ used' x) :
    Moves used' around? t t' := by
  have : used = used' := funext fun x => propext (hu x)
  exact this ▸ h

/-- Outside of functions nothing is captured. -/
theorem Moves.outside (h : Moves used none t t') : Moves used' none t t' := by
  obtain ⟨hmarks, h⟩ := h
  refine ⟨hmarks, ?_⟩
  match hf : t.functions, hf' : t'.functions with
  | [], [] => simpa [hf, hf'] using h
  | _ :: _, _ | [], _ :: _ => simp [hf, hf'] at h

theorem Fits.functions_eq_nil (h : Fits Γ t) : t.functions = [] ↔ Γ.functions = [] := by
  rw [← List.length_eq_zero_iff, ← List.length_eq_zero_iff, h.frames.length]

theorem Fits.skip (h : Fits Γ t) (n : Nat) : Fits (Γ.skip n) t :=
  ⟨h.frames, h.outside, h.cells, h.bound, h.builtins, h.slots⟩

/-- A table with other functions. -/
theorem Fits.with_functions (h : Fits Γ t) (hfit : FramesFit Γ.functions fs) :
    Fits Γ { t with functions := fs } :=
  ⟨hfit, h.outside, h.cells, h.bound, h.builtins, h.slots⟩

/-- Code without names moves nothing. -/
theorem Moves.refl (h : Fits Γ t) : Moves (fun _ => False) Γ.around? t t := by
  refine ⟨rfl, ?_⟩
  have hframes := h.frames
  unfold Names.around?
  match hf : Γ.functions, ht : t.functions with
  | [], [] => simp
  | _ :: around, f :: fs =>
    rw [hf, ht] at hframes
    refine ⟨rfl, rfl, ⟨rfl, Nat.le_refl _, List.prefix_refl _, by simp⟩, ?_⟩
    exact Grow.refl hframes.2.2 fun _ hx => hx.elim
  | [], f :: fs | vars :: around, [] =>
    rw [hf, ht] at hframes
    exact hframes.elim

/-- Captures alone move a table. -/
theorem Moves.of_grow (h : Grow used Γ.functions t.functions t'.functions)
    (hmarks : t'.marks = t.marks) (houtside : t'.outside = t.outside)
    (hglobals : t'.globals = t.globals) :
    Moves (fun y => used y ∧ y ∉ Γ.vars) Γ.around? t t' := by
  refine ⟨hmarks, ?_⟩
  unfold Names.around? Names.vars
  match hf : Γ.functions, ht : t.functions, ht' : t'.functions with
  | [], [], [] => simp [houtside]
  | vars :: around, f :: fs, f' :: fs' =>
    rw [hf, ht, ht'] at h
    obtain ⟨⟨more, rfl⟩, hx, hgrow⟩ := h
    refine ⟨houtside, hglobals, ⟨rfl, Nat.le_refl _, ?_, fun y => ?_⟩, hgrow⟩
    · rw [captured_append]
      exact List.prefix_append _ _
    · rw [hx]
      simp [and_assoc]
  | [], _ :: _, _ | [], [], _ :: _ | _ :: _, [], _ | _ :: _, _ :: _, [] =>
    rw [hf, ht, ht'] at h
    exact h.elim

theorem Fits.resolve (h : Fits Γ t) {s : Symbol} (hs : t.resolve x = (some s, t')) :
    Fits Γ t' ∧ Moves (fun y => y = x ∧ y ∉ Γ.vars) Γ.around? t t' ∧
      ∀ captured, capturedIn t'.functions <+: captured → Γ.Admits captured →
        Γ.resolve captured x = some (s.storage, s.index) := by
  unfold SymbolTable.resolve at hs
  split at hs
  · rename_i s' fs' hin
    simp only [Prod.mk.injEq, Option.some.injEq] at hs
    obtain ⟨rfl, rfl⟩ := hs
    obtain ⟨_, hfit, hgrow, hres⟩ := h.resolveIn h.frames hin
    refine ⟨h.with_functions hfit, Moves.of_grow hgrow rfl rfl rfl, ?_⟩
    rintro captured ⟨more, rfl⟩ hadmits
    exact Names.resolve_append hres hadmits
  · simp at hs

end Layout

end ScriptEngine

import ScriptEngine.Proofs.Symbols.Ledger
import Mathlib.Data.List.Forall2
/-!
Looking a name up through the frames of the open functions. Each frame keeps the definitions of its
open blocks, and each of its captures is what the frame around it knows the name as; a look-up finds
the variable that lexical scoping selects and leaves frames that differ by captures only.
-/
namespace ScriptEngine.Symbols

variable {x : String} {σ τ : Symbol} {i k : Nat} {f g : ScopeFrame} {fs gs : List ScopeFrame}
  {s : Scope} {ss : List Scope} {storage : Storage} {t : SymbolTable} {b : ScopeBlock}
  {definitions : List Symbol}

/-- A block of the table answers with the latest of the definitions. -/
def Holds (definitions : List Symbol) (b : ScopeBlock) : Prop :=
  ∀ x, b[x]? = definitions.find? (·.name = x)

theorem holds_empty : Holds [] ∅ := fun _ => by simp

theorem Holds.insert (h : Holds definitions b) (σ : Symbol) :
    Holds (σ :: definitions) (b.insert σ.name σ) := by
  intro x
  rw [Std.TreeMap.getElem?_insert, List.find?_cons]
  by_cases hx : σ.name = x
  · simp [hx]
  · have hne : ¬ compare σ.name x = .eq := fun he => hx (Std.LawfulEqCmp.eq_of_compare he)
    simpa [hne, hx] using h x

/-- A frame of the table keeps what is defined in the open blocks of a function. -/
structure Keeps (storage : Storage) (s : Scope) (f : ScopeFrame) : Prop where
  blocks : List.Forall₂ (fun o b => Holds o.definitions b) (s.block :: s.outer) (f.block :: f.outer)
  storage : ∀ σ ∈ s.visible, σ.storage = storage

theorem keeps_empty : Keeps storage .empty .empty :=
  ⟨.cons holds_empty .nil, fun _ h => by cases h⟩

theorem Keeps.with_free (h : Keeps storage s f) (free : List Symbol) :
    Keeps storage s { f with free } := ⟨h.blocks, h.storage⟩

/-- A frame finds the definition in force in its own blocks. -/
theorem Keeps.lookup (h : Keeps storage s f) (x : String) : f.lookup? x = s.latest x := by
  have hblocks := h.blocks
  unfold ScopeFrame.lookup? Scope.latest Scope.visible
  generalize s.block :: s.outer = open_ at hblocks
  generalize f.block :: f.outer = blocks at hblocks
  induction hblocks with
  | nil => rfl
  | @cons o b open_ blocks hholds _ ih =>
    rw [List.findSome?_cons, List.flatMap_cons, List.find?_append, hholds x, ← ih]
    cases o.definitions.find? (·.name = x) <;> rfl

theorem latest_name (h : s.latest x = some σ) : σ.name = x :=
  by simpa using List.find?_some h

theorem Keeps.latest_storage (h : Keeps storage s f) (hσ : s.latest x = some σ) :
    σ.storage = storage := h.storage σ (List.mem_of_find?_eq_some hσ)

/-- What a frame knows a name as: a variable of its own, or one that it has captured. -/
inductive Knows (f : ScopeFrame) (x : String) : Symbol → Prop
  | own {σ : Symbol} (h : f.lookup? x = some σ) : Knows f x σ
  | captured {i : Nat} (hown : f.lookup? x = none)
      (h : f.free.findIdx? (·.name = x) = some i) : Knows f x ⟨x, .free, i⟩

/-- No frame captures a name twice, and every capture is what the frame around knows the name as. -/
def Linked : List ScopeFrame → Prop
  | [] => True
  | f :: fs => (f.free.map (·.name)).Nodup ∧
    (∀ σ ∈ f.free, ∃ g gs, fs = g :: gs ∧ Knows g σ.name σ) ∧ Linked fs

/-- The same frames, with more captures. -/
def More : List ScopeFrame → List ScopeFrame → Prop :=
  List.Forall₂ fun f g => ∃ free, g = { f with free := f.free ++ free }

theorem More.refl (fs : List ScopeFrame) : More fs fs :=
  List.forall₂_same.mpr fun f _ => ⟨[], by simp⟩

theorem More.keeps (h : More fs gs) (hk : List.Forall₂ (Keeps storage) ss fs) :
    List.Forall₂ (Keeps storage) ss gs := by
  induction hk generalizing gs with
  | nil =>
    cases h
    exact .nil
  | cons hkeep _ ih =>
    cases h with
    | cons hgrow hrest =>
      obtain ⟨free, rfl⟩ := hgrow
      exact .cons (hkeep.with_free _) (ih hrest)

/-- A look-up adds captures, and nothing else changes. -/
theorem resolveIn_more (h : t.resolveIn x fs = some (σ, gs)) : More fs gs := by
  induction fs generalizing σ gs with
  | nil =>
    unfold SymbolTable.resolveIn at h
    split at h
    · cases h
      exact .refl _
    · obtain ⟨i, -, heq⟩ := Option.map_eq_some_iff.mp h
      cases heq
      exact .refl _
  | cons f fs ih =>
    unfold SymbolTable.resolveIn at h
    split at h
    · cases h
      exact .refl _
    · split at h
      · cases h
        exact .refl _
      · split at h
        · cases h
        · have hrest := ih ‹_›
          split at h <;> cases h
          · exact .cons ⟨[], by simp⟩ hrest
          · exact .cons ⟨[], by simp⟩ hrest
          · exact .cons ⟨_, rfl⟩ hrest
          · exact .cons ⟨_, rfl⟩ hrest

theorem resolve_more (t : SymbolTable) (x : String) : ∃ gs,
    (t.resolve x).2 = { t with functions := gs } ∧ More t.functions gs := by
  unfold SymbolTable.resolve
  cases h : t.resolveIn x t.functions with
  | none => exact ⟨_, rfl, .refl _⟩
  | some found => exact ⟨_, rfl, resolveIn_more h⟩

/-- What a frame knows stays known when it captures more. -/
theorem Knows.more (h : Knows f x σ) (free : List Symbol) :
    Knows { f with free := f.free ++ free } x σ := by
  cases h with
  | own hlookup => exact .own hlookup
  | captured hown hidx => exact .captured hown (by simp [List.findIdx?_append, hidx])

/-- The captured symbol that a name stands for. -/
theorem Knows.free (h : Knows f x ⟨x, .free, i⟩) (hown : f.lookup? x = none) :
    ∃ τ, f.free[i]? = some τ ∧ τ.name = x := by
  cases h with
  | own hlookup => rw [hown] at hlookup; cases hlookup
  | captured _ hidx =>
    obtain ⟨hlt, hname, -⟩ := List.findIdx?_eq_some_iff_getElem.mp hidx
    exact ⟨f.free[i], List.getElem?_eq_getElem hlt, of_decide_eq_true hname⟩

/-- A frame knows a name as one thing only. -/
theorem Knows.unique (h : Knows f x σ) (h' : Knows f x τ) : σ = τ := by
  cases h with
  | own hown =>
    cases h' with
    | own hown' => exact Option.some.inj (hown ▸ hown')
    | captured hnone _ => rw [hown] at hnone; cases hnone
  | captured hnone hidx =>
    cases h' with
    | own hown => rw [hown] at hnone; cases hnone
    | captured _ hidx' =>
      rw [hidx] at hidx'
      cases hidx'
      rfl

/-- A name that the innermost frame knows is answered from there, and no frame changes. -/
theorem Knows.resolveIn (h : Knows f x σ) (t : SymbolTable) (fs : List ScopeFrame) :
    t.resolveIn x (f :: fs) = some (σ, f :: fs) := by
  unfold SymbolTable.resolveIn
  cases h with
  | own hown => rw [hown]
  | captured hnone hidx => rw [hnone, hidx]

/-- Captures followed outward end at the variable that lexical scoping selects. -/
theorem Linked.follow (hl : Linked (f :: fs)) (hk : List.Forall₂ (Keeps .frame) ss (f :: fs))
    (h : Knows f x σ) : ∃ p, follow (f :: fs) σ = some p ∧ lexical x ss = some p := by
  induction ss generalizing f fs σ with
  | nil => cases hk
  | cons s ss ih =>
    cases hk with
    | cons hkeep hrest =>
      cases h with
      | own hown =>
        have hlatest : s.latest x = some σ := (hkeep.lookup x).symm.trans hown
        exact ⟨(0, σ), follow_variable (hkeep.latest_storage hlatest), by simp [lexical, hlatest]⟩
      | captured hnone hidx =>
        obtain ⟨τ, hτ, rfl⟩ := Knows.free (.captured hnone hidx) hnone
        obtain ⟨g, gs, rfl, hknows⟩ := hl.2.1 τ (List.mem_of_getElem? hτ)
        obtain ⟨p, hfollow, hlexical⟩ := ih hl.2.2 hrest hknows
        have hlatest : s.latest τ.name = none := (hkeep.lookup τ.name).symm.trans hnone
        refine ⟨(p.1 + 1, p.2), ?_, ?_⟩
        · rw [follow_capture hτ, hfollow, Option.map_some]
        · simp [lexical, hlatest, hlexical]

/-- What a name means outside of all functions. -/
def outsideMeaning (t : SymbolTable) (x : String) : Option Symbol :=
  (t.outside.lookup? x).or (t.builtins[x]?.map (⟨x, .builtin, ·⟩))

/-- A name that is a variable of no function means what it means outside, and no frame changes. -/
theorem resolveIn_outside (houtside : ∀ σ, t.outside.lookup? x = some σ → σ.storage = .global)
    (hl : Linked fs) (hk : List.Forall₂ (Keeps .frame) ss fs) (h : lexical x ss = none) :
    t.resolveIn x fs = (outsideMeaning t x).map (·, fs) := by
  induction hk with
  | nil =>
    unfold SymbolTable.resolveIn outsideMeaning
    cases t.outside.lookup? x with
    | some σ => rfl
    | none => cases t.builtins[x]? <;> rfl
  | @cons s f ss fs hkeep hrest ih =>
    have hsplit : s.latest x = none ∧ lexical x ss = none := by
      rw [lexical] at h
      split at h
      · cases h
      · exact ⟨‹_›, Option.map_eq_none_iff.mp h⟩
    have hown : f.lookup? x = none := (hkeep.lookup x).trans hsplit.1
    -- A capture of the name would have to end at a variable.
    have hfree : f.free.findIdx? (·.name = x) = none := by
      cases hidx : f.free.findIdx? (·.name = x) with
      | none => rfl
      | some i =>
        obtain ⟨p, -, hp⟩ := hl.follow (.cons hkeep hrest) (.captured hown hidx)
        rw [h] at hp
        cases hp
    have hin := ih hl.2.2 hsplit.2
    unfold SymbolTable.resolveIn
    rw [hown, hfree]
    dsimp only
    rw [hin]
    unfold outsideMeaning
    cases hlookup : t.outside.lookup? x with
    | some σ => simp [houtside σ hlookup]
    | none => cases t.builtins[x]? <;> rfl

/-- A frame captures a name that the frame around it knows. -/
theorem Linked.capture (hl : Linked (f :: fs)) (hg : More fs (g :: gs)) (hl' : Linked (g :: gs))
    (hfree : f.free.findIdx? (·.name = σ.name) = none) (hσ : Knows g σ.name σ) :
    Linked ({ f with free := f.free ++ [σ] } :: g :: gs) := by
  refine ⟨?_, fun τ hτ => ⟨g, gs, rfl, ?_⟩, hl'⟩
  · have hnew : σ.name ∉ f.free.map (·.name) := by
      intro hmem
      obtain ⟨τ, hτ, hname⟩ := List.mem_map.mp hmem
      have := List.findIdx?_eq_none_iff.mp hfree τ hτ
      simp [hname] at this
    rw [List.map_append, List.nodup_append]
    exact ⟨hl.1, by simp, by simpa using fun τ hτ he => hnew (List.mem_map.mpr ⟨τ, hτ, he⟩)⟩
  · rcases List.mem_append.mp hτ with hτ | hτ
    · obtain ⟨g', gs', rfl, hknows⟩ := hl.2.1 τ hτ
      cases hg with
      | cons hgrow _ =>
        obtain ⟨free, rfl⟩ := hgrow
        exact hknows.more free
    · rw [List.mem_singleton.mp hτ]
      exact hσ

/-- The variables that are captured are kept in frames. -/
theorem Knows.kept (hk : Keeps .frame s f) (h : Knows f x σ) :
    σ.name = x ∧ (σ.storage = .frame ∨ σ.storage = .free) := by
  cases h with
  | own hown =>
    have hlatest := (hk.lookup x).symm.trans hown
    exact ⟨latest_name hlatest, Or.inl (hk.latest_storage hlatest)⟩
  | captured => exact ⟨rfl, Or.inr rfl⟩

/-- A name that is a variable of some function is found: the functions further in capture it, and the
innermost frame then knows it as what is answered. -/
theorem resolveIn_variable {p : Nat × Symbol} (hl : Linked fs)
    (hk : List.Forall₂ (Keeps .frame) ss fs) (h : lexical x ss = some p) :
    ∃ σ g gs, t.resolveIn x fs = some (σ, g :: gs) ∧ Linked (g :: gs) ∧ Knows g x σ := by
  induction hk generalizing p with
  | nil => cases h
  | @cons s f ss fs hkeep hrest ih =>
    cases hown : f.lookup? x with
    | some σ =>
      have hknows : Knows f x σ := .own hown
      exact ⟨σ, f, fs, hknows.resolveIn t fs, hl, hknows⟩
    | none =>
      cases hidx : f.free.findIdx? (·.name = x) with
      | some i =>
        have hknows : Knows f x ⟨x, .free, i⟩ := .captured hown hidx
        exact ⟨⟨x, .free, i⟩, f, fs, hknows.resolveIn t fs, hl, hknows⟩
      | none =>
        have hlatest : s.latest x = none := (hkeep.lookup x).symm.trans hown
        rw [lexical, hlatest] at h
        obtain ⟨q, hq, -⟩ := Option.map_eq_some_iff.mp h
        obtain ⟨σ, g, gs, hin, hlinked, hknows⟩ := ih hl.2.2 hq
        have hmore := resolveIn_more hin
        have hgs := hmore.keeps hrest
        obtain ⟨rfl, hstorage⟩ : σ.name = x ∧ (σ.storage = .frame ∨ σ.storage = .free) := by
          cases hgs with
          | cons hkeep' _ => exact hknows.kept hkeep'
        have hnew : ({ f with free := f.free ++ [σ] } : ScopeFrame).free.findIdx?
            (·.name = σ.name) = some f.free.length := by
          simp [List.findIdx?_append, hidx, List.findIdx?_cons]
        refine ⟨⟨σ.name, .free, f.free.length⟩, { f with free := f.free ++ [σ] }, g :: gs, ?_,
          hl.capture hmore hlinked hidx hknows, .captured hown hnew⟩
        unfold SymbolTable.resolveIn
        rw [hown, hidx]
        dsimp only
        rw [hin]
        rcases hstorage with hstorage | hstorage <;> dsimp only <;> rw [hstorage]

end ScriptEngine.Symbols

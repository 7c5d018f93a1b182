import Mathlib.Logic.Relation
import ScriptEngine.Proofs.Imports.Tour
/-!
Imports followed in the order in which they are compiled. A module is entered at its first import and
is known once all of its own imports have been followed; a module that is imported while it is being
followed closes a cycle, which modules that import one another without cycles never do.
-/
namespace ScriptEngine

namespace Imports

/-- A module of the registry that is a script, as statements. -/
def Script (R : Registry) (key : String) (body : List Stmt) : Prop :=
  ∃ text, R[key]? = some (.script text) ∧ parse key text.toUTF8 = .ok body

/-- The imports `names` are followed in turn, within the modules `chain` and when the modules
`known` have been followed. On the way the modules `entered` are entered, and in the end the last
list is known. -/
inductive Walk (R : Registry) : (chain known names entered : List String) → Ending → List String →
    Prop where
  | nil {chain known : List String} : Walk R chain known [] [] .finished known
  | stop {chain known names : List String} : Walk R chain known names [] .stopped known
  /-- A module of the host imports nothing. -/
  | attrs {x : String} {entries : List (String × Value)} {ending : Ending}
      {chain known rest entered known' : List String} (hx : R[x]? = some (.attrs entries))
      (hrest : Walk R chain known rest entered ending known') :
      Walk R chain known (x :: rest) entered ending known'
  | again {x text : String} {ending : Ending} {chain known rest entered known' : List String}
      (hx : R[x]? = some (.script text)) (hchain : x ∉ chain) (hknown : x ∈ known)
      (hrest : Walk R chain known rest entered ending known') :
      Walk R chain known (x :: rest) entered ending known'
  | cyclic {x text : String} {chain known rest : List String} (hx : R[x]? = some (.script text))
      (hchain : x ∈ chain) : Walk R chain known (x :: rest) [] (.cyclic x) known
  /-- The module cannot be followed to its end. -/
  | inside {x : String} {body : List Stmt} {ending : Ending}
      {chain known rest entered known' : List String} (hbody : Script R x body)
      (hchain : x ∉ chain) (hknown : x ∉ known)
      (hinner : Walk R (x :: chain) known (Stmt.allImports body) entered ending known')
      (hending : ending ≠ .finished) : Walk R chain known (x :: rest) (x :: entered) ending known'
  | first {x : String} {body : List Stmt} {ending : Ending}
      {chain known rest entered between entered' known' : List String} (hbody : Script R x body)
      (hchain : x ∉ chain) (hknown : x ∉ known)
      (hinner : Walk R (x :: chain) known (Stmt.allImports body) entered .finished between)
      (hrest : Walk R chain (x :: between) rest entered' ending known') :
      Walk R chain known (x :: rest) (x :: (entered ++ entered')) ending known'

/-- Some script of the registry imports another one. -/
def Edge (R : Registry) (x y : String) : Prop := ∃ body, Script R x body ∧ y ∈ Stmt.allImports body

/-- No script leads back to itself. -/
def Acyclic (R : Registry) : Prop := ∀ x, ¬ Relation.TransGen (Edge R) x x

variable {R : Registry} {chain known names names' rest entered entered' between known' : List String}
  {ending ending' : Ending} {x k : String}

namespace Walk

theorem append (h : Walk R chain known names entered .finished between)
    (h' : Walk R chain between names' entered' ending known') :
    Walk R chain known (names ++ names') (entered ++ entered') ending known' := by
  generalize hfinished : Ending.finished = ending₁ at h
  induction h with
  | nil => exact h'
  | stop | cyclic => cases hfinished
  | inside _ _ _ _ hending => exact absurd hfinished.symm hending
  | attrs hx _ ih => exact .attrs hx (ih h' hfinished)
  | again hx hchain hknown _ ih => exact .again hx hchain hknown (ih h' hfinished)
  | first hbody hchain hknown hinner _ _ ih =>
    rw [List.cons_append, List.cons_append, List.append_assoc]
    exact .first hbody hchain hknown hinner (ih h' hfinished)

theorem append_left (h : Walk R chain known names entered ending known')
    (hending : ending ≠ .finished) :
    Walk R chain known (names ++ rest) entered ending known' := by
  induction h with
  | nil => exact absurd rfl hending
  | stop => exact .stop
  | cyclic hx hchain => exact .cyclic hx hchain
  | inside hbody hchain hknown hinner hne => exact .inside hbody hchain hknown hinner hne
  | attrs hx _ ih => exact .attrs hx (ih hending)
  | again hx hchain hknown _ ih => exact .again hx hchain hknown (ih hending)
  | first hbody hchain hknown hinner _ _ ih =>
    exact .first hbody hchain hknown hinner (ih hending)

/-- To follow imports among the scripts of a registry is to follow them where there are no files. -/
theorem tour (h : Walk R chain known names entered ending known') :
    Tour ⟨R, .empty, false, ""⟩ id chain "" known names entered ending known' := by
  induction h with
  | nil => exact .nil
  | stop => exact .stop
  | attrs hx _ ih => exact .attrs hx ih
  | again hx hchain hknown _ ih => exact .again (.script hx) hchain hknown ih
  | cyclic hx hchain => exact .cyclic (.script hx) hchain
  | inside hbody hchain hknown _ hending ih =>
    obtain ⟨text, hx, hparse⟩ := hbody
    exact .inside (.script hx hparse) hchain hknown ih hending
  | first hbody hchain hknown _ _ ih ihrest =>
    obtain ⟨text, hx, hparse⟩ := hbody
    exact .first (.script hx hparse) hchain hknown ih ihrest

/-- There is one way to follow imports that nothing stops. -/
theorem unique (h : Walk R chain known names entered ending known')
    (h' : Walk R chain known names entered' ending' between) (hends : ending ≠ .stopped)
    (hends' : ending' ≠ .stopped) : ending = ending' ∧ known' = between :=
  h.tour.unique h'.tour hends hends'

/-- Modules are entered that are neither known nor being followed. -/
theorem entered_fresh (h : Walk R chain known names entered ending known') :
    ∀ k ∈ entered, k ∉ chain ∧ k ∉ known :=
  h.tour.entered_fresh

/-- The modules that become known are among those that were entered; all of them are, if the imports
have been followed to their end. -/
theorem known_eq (h : Walk R chain known names entered ending known') :
    ∃ new, known' = new ++ known ∧ (∀ k ∈ new, k ∈ entered) ∧
      (ending = .finished → ∀ k ∈ entered, k ∈ new) :=
  h.tour.known_eq

/-- No module is entered twice. -/
theorem entered_nodup (h : Walk R chain known names entered ending known') : entered.Nodup :=
  h.tour.entered_nodup

/-- A cycle that is closed is one of scripts that import one another. -/
theorem transGen (h : Walk R chain known names entered (.cyclic k) known')
    (hnames : ∀ x ∈ chain, ∀ y ∈ names, Relation.TransGen (Edge R) x y) :
    Relation.TransGen (Edge R) k k := by
  generalize hcyclic : Ending.cyclic k = ending at h
  induction h with
  | nil | stop => cases hcyclic
  | attrs _ _ ih | again _ _ _ _ ih | first _ _ _ _ _ _ ih =>
    exact ih (fun x hx y hy => hnames x hx y (List.mem_cons_of_mem _ hy)) hcyclic
  | cyclic _ hmem =>
    cases hcyclic
    exact hnames k hmem k List.mem_cons_self
  | inside hbody _ _ _ _ ih =>
    refine ih (fun x hx y hy => ?_) hcyclic
    have hedge : Edge R _ y := ⟨_, hbody, hy⟩
    rcases List.mem_cons.mp hx with rfl | hx
    · exact .single hedge
    · exact (hnames x hx _ List.mem_cons_self).tail hedge

end Walk

/-- Where no script leads back to itself, no cycle is closed. -/
theorem Acyclic.not_cyclic (hR : Acyclic R) :
    ¬ Walk R [] known names entered (.cyclic k) known' := by
  intro h
  exact hR k (h.transGen fun x hx => nomatch hx)

end Imports

end ScriptEngine

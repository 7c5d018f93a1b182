import Mathlib.Data.List.Basic
import ScriptEngine.Compile.Import
/-!
Imports followed in the order in which they are compiled, registered modules and files alike. A module is
entered at its first import and is known once all of its own imports have been followed; a module that is
imported while it is being followed closes a cycle. By what modules are told apart is a parameter.
-/
namespace ScriptEngine

mutual

/-- The names that an expression imports, in the order in which it is compiled. -/
def Expr.imports : Expr → List String
  | .lit .. | .name .. => []
  | .array _ items => Expr.allImports items
  | .map _ entries => Expr.entryImports entries
  | .unary _ _ e | .field _ e _ => e.imports
  | .binary _ _ left right => left.imports ++ right.imports
  | .call _ callee args => callee.imports ++ Expr.allImports args
  | .index _ container index => container.imports ++ index.imports
  | .func _ _ body => body.imports
  | .load _ name => [name]

def Expr.allImports : List Expr → List String
  | [] => []
  | e :: rest => e.imports ++ Expr.allImports rest

def Expr.entryImports : List (String × Expr) → List String
  | [] => []
  | (_, e) :: rest => e.imports ++ Expr.entryImports rest

def Expr.partImports : Option Expr → List String
  | none => []
  | some e => e.imports

/-- An element is replaced in a copy of its container, which is stored in turn. -/
def Expr.storeImports : Expr → List String → List String
  | .index _ container index, value =>
    container.storeImports (container.imports ++ (index.imports ++ value))
  | .field _ container _, value => container.storeImports (container.imports ++ value)
  | .name .., value => value
  | .lit .., _ | .array .., _ | .map .., _ | .unary .., _ | .binary .., _ | .call .., _
  | .func .., _ | .load .., _ => []

/-- The names that a statement imports, in the order in which it is compiled. -/
def Stmt.imports : Stmt → List String
  | .expr e | .define _ _ e | .exportValue _ e => e.imports
  | .assign _ none place e => place.storeImports e.imports
  | .assign _ (some _) place e => place.storeImports (place.imports ++ e.imports)
  | .branch _ cond body orElse => cond.imports ++ (body.imports ++ Stmt.partImports orElse)
  | .loop _ init cond post body =>
    Stmt.partImports init ++ (Expr.partImports cond ++ (body.imports ++ Stmt.partImports post))
  | .breakLoop _ | .continueLoop _ => []
  | .returnValue _ value => Expr.partImports value
  | .block body => body.imports

def Stmt.partImports : Option Stmt → List String
  | none => []
  | some s => s.imports

def Block.imports : Block → List String
  | .mk _ body => Stmt.allImports body

def Stmt.allImports : List Stmt → List String
  | [] => []
  | s :: rest => s.imports ++ Stmt.allImports rest

end

namespace Imports

/-- How following imports ends. -/
inductive Ending where
  /-- All of them have been followed. -/
  | finished
  /-- A module is imported while it is being followed. -/
  | cyclic (key : String)
  /-- Something else was wrong before. -/
  | stopped

/-- The key of the module that an import from a directory names: a registered script goes by its name, a
file by its path. -/
inductive Keys (o : ImportOptions) (directory : String) : (x key : String) → Prop where
  | script {x text : String} (hx : o.registry[x]? = some (.script text)) : Keys o directory x x
  | file {x key : String} (hx : o.registry[x]? = none) (hfile : o.fileImport = true)
      (hpath : o.path directory x = .ok key) : Keys o directory x key

/-- The import names a module that can be read: its key, the directory that its own imports are seen
from, and its statements. -/
inductive Opens (o : ImportOptions) (directory : String) :
    (x key directory' : String) → List Stmt → Prop where
  | script {x text : String} {body : List Stmt} (hx : o.registry[x]? = some (.script text))
      (hbody : parse x text.toUTF8 = .ok body) : Opens o directory x x directory body
  | file {x key : String} {source : ByteArray} {body : List Stmt} (hx : o.registry[x]? = none)
      (hfile : o.fileImport = true) (hpath : o.path directory x = .ok key)
      (hread : o.files.read key = .ok source) (hbody : parse key source = .ok body) :
      Opens o directory x key (Path.parent key) body

variable {K : Type}

/-- The imports `names` are followed in turn from a directory, within the modules `chain` and when the
modules `known` have been followed. On the way the modules `entered` are entered, and in the end the last
list is known. Two modules are the same if they are identified with the same thing. -/
inductive Tour (o : ImportOptions) (identity : String → K) :
    (chain : List K) → (directory : String) → (known : List K) → (names : List String) →
    (entered : List K) → Ending → List K → Prop where
  | nil {chain known : List K} {directory : String} :
      Tour o identity chain directory known [] [] .finished known
  | stop {chain known : List K} {directory : String} {names : List String} :
      Tour o identity chain directory known names [] .stopped known
  /-- A module of the host imports nothing. -/
  | attrs {chain known entered known' : List K} {directory x : String} {rest : List String}
      {entries : List (String × Value)} {ending : Ending}
      (hx : o.registry[x]? = some (.attrs entries))
      (hrest : Tour o identity chain directory known rest entered ending known') :
      Tour o identity chain directory known (x :: rest) entered ending known'
  | again {chain known entered known' : List K} {directory x key : String} {rest : List String}
      {ending : Ending} (hkey : Keys o directory x key) (hchain : identity key ∉ chain)
      (hknown : identity key ∈ known)
      (hrest : Tour o identity chain directory known rest entered ending known') :
      Tour o identity chain directory known (x :: rest) entered ending known'
  | cyclic {chain known : List K} {directory x key : String} {rest : List String}
      (hkey : Keys o directory x key) (hchain : identity key ∈ chain) :
      Tour o identity chain directory known (x :: rest) [] (.cyclic key) known
  /-- The module cannot be followed to its end. -/
  | inside {chain known entered known' : List K} {directory x key directory' : String}
      {rest : List String} {body : List Stmt} {ending : Ending}
      (hopens : Opens o directory x key directory' body) (hchain : identity key ∉ chain)
      (hknown : identity key ∉ known)
      (hinner : Tour o identity (identity key :: chain) directory' known (Stmt.allImports body) entered
        ending known')
      (hending : ending ≠ .finished) :
      Tour o identity chain directory known (x :: rest) (identity key :: entered) ending known'
  | first {chain known entered between entered' known' : List K} {directory x key directory' : String}
      {rest : List String} {body : List Stmt} {ending : Ending}
      (hopens : Opens o directory x key directory' body) (hchain : identity key ∉ chain)
      (hknown : identity key ∉ known)
      (hinner : Tour o identity (identity key :: chain) directory' known (Stmt.allImports body) entered
        .finished between)
      (hrest : Tour o identity chain directory (identity key :: between) rest entered' ending known') :
      Tour o identity chain directory known (x :: rest) (identity key :: (entered ++ entered')) ending
        known'

section Keys

variable {o : ImportOptions} {directory directory' directory'' x key key' : String}
  {body body' : List Stmt} {entries : List (String × Value)}

theorem Keys.unique (h : Keys o directory x key) (h' : Keys o directory x key') : key = key' := by
  cases h with
  | script hx =>
    cases h' with
    | script => rfl
    | file hx' => simp [hx] at hx'
  | file hx _ hpath =>
    cases h' with
    | script hx' => simp [hx] at hx'
    | file _ _ hpath' => exact Except.ok.inj (hpath.symm.trans hpath')

theorem Keys.ne_attrs (h : Keys o directory x key) (hx : o.registry[x]? = some (.attrs entries)) :
    False := by
  cases h with
  | script hx' | file hx' => simp [hx] at hx'

theorem Opens.keys (h : Opens o directory x key directory' body) : Keys o directory x key := by
  cases h with
  | script hx => exact .script hx
  | file hx hfile hpath => exact .file hx hfile hpath

theorem Opens.unique (h : Opens o directory x key directory' body)
    (h' : Opens o directory x key directory'' body') : directory' = directory'' ∧ body = body' := by
  cases h with
  | script hx hbody =>
    cases h' with
    | script hx' hbody' =>
      obtain rfl := ModuleSource.script.inj (Option.some.inj (hx.symm.trans hx'))
      exact ⟨rfl, Except.ok.inj (hbody.symm.trans hbody')⟩
    | file hx' => simp [hx] at hx'
  | file hx _ _ hread hbody =>
    cases h' with
    | script hx' => simp [hx] at hx'
    | file _ _ _ hread' hbody' =>
      obtain rfl := Except.ok.inj (hread.symm.trans hread')
      exact ⟨rfl, Except.ok.inj (hbody.symm.trans hbody')⟩

end Keys

namespace Tour

variable {o : ImportOptions} {identity : String → K} {chain known entered entered' between known' : List K}
  {directory : String} {names names' rest : List String} {ending ending' : Ending} {k : String}

theorem append (h : Tour o identity chain directory known names entered .finished between)
    (h' : Tour o identity chain directory between names' entered' ending known') :
    Tour o identity chain directory known (names ++ names') (entered ++ entered') ending known' := by
  generalize hfinished : Ending.finished = ending₁ at h
  induction h with
  | nil => exact h'
  | stop | cyclic => cases hfinished
  | inside _ _ _ _ hending => exact absurd hfinished.symm hending
  | attrs hx _ ih => exact .attrs hx (ih h' hfinished)
  | again hkey hchain hknown _ ih => exact .again hkey hchain hknown (ih h' hfinished)
  | first hopens hchain hknown hinner _ _ ih =>
    rw [List.cons_append, List.cons_append, List.append_assoc]
    exact .first hopens hchain hknown hinner (ih h' hfinished)

theorem append_left (h : Tour o identity chain directory known names entered ending known')
    (hending : ending ≠ .finished) :
    Tour o identity chain directory known (names ++ rest) entered ending known' := by
  induction h with
  | nil => exact absurd rfl hending
  | stop => exact .stop
  | cyclic hkey hchain => exact .cyclic hkey hchain
  | inside hopens hchain hknown hinner hne => exact .inside hopens hchain hknown hinner hne
  | attrs hx _ ih => exact .attrs hx (ih hending)
  | again hkey hchain hknown _ ih => exact .again hkey hchain hknown (ih hending)
  | first hopens hchain hknown hinner _ _ ih =>
    exact .first hopens hchain hknown hinner (ih hending)

/-- There is one way to follow imports that nothing stops. -/
theorem unique (h : Tour o identity chain directory known names entered ending known')
    (h' : Tour o identity chain directory known names entered' ending' between)
    (hends : ending ≠ .stopped) (hends' : ending' ≠ .stopped) : ending = ending' ∧ known' = between := by
  induction h generalizing entered' ending' between with
  | nil =>
    cases h' with
    | nil => exact ⟨rfl, rfl⟩
    | stop => exact absurd rfl hends'
  | stop => exact absurd rfl hends
  | attrs hx hrest ih =>
    cases h' with
    | stop => exact absurd rfl hends'
    | attrs _ hrest' => exact ih hrest' hends hends'
    | again hkey' | cyclic hkey' => exact (hkey'.ne_attrs hx).elim
    | inside hopens' | first hopens' => exact (hopens'.keys.ne_attrs hx).elim
  | again hkey hchain hknown hrest ih =>
    cases h' with
    | stop => exact absurd rfl hends'
    | attrs hx' => exact (hkey.ne_attrs hx').elim
    | again _ _ _ hrest' => exact ih hrest' hends hends'
    | cyclic hkey' hchain' =>
      obtain rfl := hkey.unique hkey'
      exact absurd hchain' hchain
    | inside hopens' _ hknown' | first hopens' _ hknown' =>
      obtain rfl := hkey.unique hopens'.keys
      exact absurd hknown hknown'
  | cyclic hkey hchain =>
    cases h' with
    | stop => exact absurd rfl hends'
    | attrs hx' => exact (hkey.ne_attrs hx').elim
    | cyclic hkey' =>
      obtain rfl := hkey.unique hkey'
      exact ⟨rfl, rfl⟩
    | again hkey' hchain' =>
      obtain rfl := hkey.unique hkey'
      exact absurd hchain hchain'
    | inside hopens' hchain' | first hopens' hchain' =>
      obtain rfl := hkey.unique hopens'.keys
      exact absurd hchain hchain'
  | inside hopens hchain hknown hinner hne ih =>
    cases h' with
    | stop => exact absurd rfl hends'
    | attrs hx' => exact (hopens.keys.ne_attrs hx').elim
    | again hkey' _ hknown' =>
      obtain rfl := hopens.keys.unique hkey'
      exact absurd hknown' hknown
    | cyclic hkey' hchain' =>
      obtain rfl := hopens.keys.unique hkey'
      exact absurd hchain' hchain
    | inside hopens' _ _ hinner' =>
      obtain rfl := hopens.keys.unique hopens'.keys
      obtain ⟨rfl, rfl⟩ := hopens.unique hopens'
      exact ih hinner' hends hends'
    | first hopens' _ _ hinner' =>
      obtain rfl := hopens.keys.unique hopens'.keys
      obtain ⟨rfl, rfl⟩ := hopens.unique hopens'
      exact absurd (ih hinner' hends (by simp)).1 hne
  | first hopens hchain hknown hinner hrest ih ihrest =>
    cases h' with
    | stop => exact absurd rfl hends'
    | attrs hx' => exact (hopens.keys.ne_attrs hx').elim
    | again hkey' _ hknown' =>
      obtain rfl := hopens.keys.unique hkey'
      exact absurd hknown' hknown
    | cyclic hkey' hchain' =>
      obtain rfl := hopens.keys.unique hkey'
      exact absurd hchain' hchain
    | inside hopens' _ _ hinner' hne =>
      obtain rfl := hopens.keys.unique hopens'.keys
      obtain ⟨rfl, rfl⟩ := hopens.unique hopens'
      exact absurd (ih hinner' (by simp) hends').1.symm hne
    | first hopens' _ _ hinner' hrest' =>
      obtain rfl := hopens.keys.unique hopens'.keys
      obtain ⟨rfl, rfl⟩ := hopens.unique hopens'
      obtain ⟨-, rfl⟩ := ih hinner' (by simp) (by simp)
      exact ihrest hrest' hends hends'

theorem known_suffix (h : Tour o identity chain directory known names entered ending known') :
    known <:+ known' := by
  induction h with
  | nil | stop | cyclic => exact List.suffix_refl _
  | attrs _ _ ih | again _ _ _ _ ih | inside _ _ _ _ _ ih => exact ih
  | first _ _ _ _ _ ih ihrest => exact ih.trans ((List.suffix_cons _ _).trans ihrest)

/-- Modules are entered that are neither known nor being followed. -/
theorem entered_fresh (h : Tour o identity chain directory known names entered ending known') :
    ∀ k ∈ entered, k ∉ chain ∧ k ∉ known := by
  induction h with
  | nil | stop | cyclic => exact fun k hk => nomatch hk
  | attrs _ _ ih | again _ _ _ _ ih => exact ih
  | inside _ hchain hknown _ _ ih =>
    intro k hk
    rcases List.mem_cons.mp hk with rfl | hk
    · exact ⟨hchain, hknown⟩
    · exact ⟨fun hmem => (ih k hk).1 (List.mem_cons_of_mem _ hmem), (ih k hk).2⟩
  | first _ hchain hknown hinner _ ih ihrest =>
    intro k hk
    rcases List.mem_cons.mp hk with rfl | hk
    · exact ⟨hchain, hknown⟩
    rcases List.mem_append.mp hk with hk | hk
    · exact ⟨fun hmem => (ih k hk).1 (List.mem_cons_of_mem _ hmem), (ih k hk).2⟩
    · refine ⟨(ihrest k hk).1, fun hmem => (ihrest k hk).2 ?_⟩
      exact List.mem_cons_of_mem _ (hinner.known_suffix.subset hmem)

/-- The modules that become known are among those that were entered; all of them are, if the imports
have been followed to their end. -/
theorem known_eq (h : Tour o identity chain directory known names entered ending known') :
    ∃ new, known' = new ++ known ∧ (∀ k ∈ new, k ∈ entered) ∧
      (ending = .finished → ∀ k ∈ entered, k ∈ new) := by
  induction h with
  | nil | stop | cyclic => exact ⟨[], rfl, by simp, by simp⟩
  | attrs _ _ ih | again _ _ _ _ ih => exact ih
  | inside _ _ _ _ hending ih =>
    obtain ⟨new, rfl, hnew, -⟩ := ih
    exact ⟨new, rfl, fun k hk => List.mem_cons_of_mem _ (hnew k hk), fun h => absurd h hending⟩
  | first _ _ _ _ _ ih ihrest =>
    obtain ⟨new, rfl, hnew, hall⟩ := ih
    obtain ⟨new', rfl, hnew', hall'⟩ := ihrest
    refine ⟨_, (List.append_assoc new' (_ :: new) _).symm, fun k hk => ?_, fun hending k hk => ?_⟩
    · simp only [List.mem_append, List.mem_cons] at hk ⊢
      rcases hk with hk | rfl | hk
      · exact .inr (.inr (hnew' k hk))
      · exact .inl rfl
      · exact .inr (.inl (hnew k hk))
    · simp only [List.mem_append, List.mem_cons] at hk ⊢
      rcases hk with rfl | hk | hk
      · exact .inr (.inl rfl)
      · exact .inr (.inr (hall rfl k hk))
      · exact .inl (hall' hending k hk)

/-- What is being followed does not become known meanwhile. -/
theorem chain_fresh (h : Tour o identity chain directory known names entered ending known')
    (hchain : ∀ k ∈ chain, k ∉ known) : ∀ k ∈ chain, k ∉ known' := by
  obtain ⟨new, rfl, hnew, -⟩ := h.known_eq
  intro k hk hmem
  rcases List.mem_append.mp hmem with hmem | hmem
  · exact (h.entered_fresh k (hnew k hmem)).1 hk
  · exact hchain k hk hmem

/-- No module is entered twice. -/
theorem entered_nodup (h : Tour o identity chain directory known names entered ending known') :
    entered.Nodup := by
  induction h with
  | nil | stop | cyclic => exact List.nodup_nil
  | attrs _ _ ih | again _ _ _ _ ih => exact ih
  | inside _ _ _ hinner _ ih =>
    exact List.nodup_cons.mpr ⟨fun hk => (hinner.entered_fresh _ hk).1 List.mem_cons_self, ih⟩
  | first _ _ _ hinner hrest ih ihrest =>
    obtain ⟨new, rfl, -, hall⟩ := hinner.known_eq
    rw [List.nodup_cons, List.mem_append, not_or, List.nodup_append]
    refine ⟨⟨fun hk => (hinner.entered_fresh _ hk).1 List.mem_cons_self,
      fun hk => (hrest.entered_fresh _ hk).2 List.mem_cons_self⟩, ih, ihrest, fun k hk k' hk' he => ?_⟩
    subst he
    refine (hrest.entered_fresh k hk').2 (List.mem_cons_of_mem _ ?_)
    exact List.mem_append_left _ (hall rfl k hk)

end Tour

end Imports

end ScriptEngine

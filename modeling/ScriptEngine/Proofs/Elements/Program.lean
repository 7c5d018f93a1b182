import ScriptEngine.Proofs.Elements.Replays
import ScriptEngine.Proofs.Quiet.Program
/-!
Assignments to elements in programs. Without calls such an assignment changes the element and nothing
else, or fails and changes nothing. With calls it matters how often each part is evaluated, and when.
-/
namespace ScriptEngine

namespace Image

/-- An element of a variable has a new value, and nothing else has changed. -/
structure Assigned (L : Image) (R : Body) (x : Setting) (Γ : Names) (target : Expr) (q : Nat)
    (ks : List Value) (w v v' : Value) (m m' : Machine) : Prop where
  replaced : Value.Replaced ks w v v'
  holds : R.value? Γ m' target.root = some v'
  /-- The variable is the only difference, and the run is about to go on at `q`. -/
  state : ∃ storage i, Γ.resolve R.captured target.root = some (storage, i) ∧
    (m.put storage i v').Amid [] q m'
  others : ∀ storage i, Γ.resolve R.captured target.root ≠ some (storage, i) →
    m'.read? storage i = m.read? storage i
  keys : R.Keys Γ m' target ks
  reads : ∀ {n p q : Nat}, L.exprAt R (Γ.skip n) target p q → R.Fits p q →
    m'.Makes x p q fun made => .ok (w, made)

variable {L : Image} {R : Body} {x : Setting} {Γ : Names} {m m' : Machine} {target e : Expr}
  {pos : Pos} {p q : Nat} {ks : List Value} {v v' w : Value} {storage : Storage} {i : Nat}
  {J : Option (Nat × Nat)}

/-- A variable that an element is replaced in is no key on the way to the element, so the keys stay
as they are. -/
theorem keys_put (hv : m.read? storage i = some v) (hks : R.Keys Γ m target ks) (hmem : v ∉ ks)
    (hothers : ∀ storage' j, (storage', j) ≠ (storage, i) →
      m'.read? storage' j = m.read? storage' j) : R.Keys Γ m' target ks := by
  refine Eq.trans (List.map_congr_left fun key hkey => ?_) hks
  have hsome : R.key? Γ m key ∈ ks.map some := hks ▸ List.mem_map_of_mem hkey
  obtain ⟨k, hk, hvalue⟩ := List.mem_map.mp hsome
  cases key with
  | name _ y =>
    change R.value? Γ m' y = R.value? Γ m y
    have hvalue : R.value? Γ m y = some k := hvalue.symm
    unfold Body.value? at hvalue ⊢
    cases hres : Γ.resolve R.captured y with
    | none => rfl
    | some place =>
      obtain ⟨storage', j⟩ := place
      rw [hres] at hvalue
      refine hothers storage' j fun hsame => hmem ?_
      cases hsame
      obtain rfl : v = k := Option.some.inj (hv.symm.trans hvalue)
      exact hk
  | _ => rfl

/-- The code of an assignment to an element replaces the element, or halts and changes nothing. -/
theorem Frames.assigns (hR : L.Frames R x m) (hpath : target.IsPath) (hkeys : target.keys ≠ [])
    (hfree : L.CallFree e) (hat : L.stmtAt R J Γ (.assign pos none target e) p q)
    (hfits : R.Fits p q) (hip : m.frame.ip = p) :
    ∃ v ks n c d make, R.value? Γ m target.root = some v ∧ R.Keys Γ m target ks ∧
      p ≤ c ∧ d ≤ q ∧ L.exprAt R (Γ.skip n) e c d ∧ m.Makes x c d make ∧
      ((∃ w made v' k m', make m.made = .ok (w, made) ∧
          m.loop x (fun _ => false) k = (.unfinished, m') ∧
          L.Assigned R x Γ target q ks w v v' m m') ∨
        ∃ t, m.Fails x m t ∧ (t.IsLimit ∨ v.rebuilt ks make m.made = .error t)) := by
  simp only [stmtAt] at hat
  obtain ⟨v, ks, hv, hks⟩ := storeAt.values hR hpath hkeys hat
  obtain ⟨storage, i, n, c, d, hroot, hstores, he, hpc, hdq, hstore⟩ :=
    storeAt.comes hR (fun _ _ _ h => hR.expr_le h) hpath hv hks hat hfits
  obtain ⟨make, hmake⟩ := exprAt.makes hR e hfree he (hfits.part hpc hdq)
  refine ⟨v, ks, n, c, d, make, hv, hks, hpc, hdq, he, hmake, ?_⟩
  rcases hstore make hmake m (.refl hip) with ⟨t, ht, hfails⟩ | hcomes
  · exact .inr ⟨t, hfails, .inl ht⟩
  · cases hresult : v.rebuilt ks make m.made with
    | error t =>
      rw [hresult] at hcomes
      exact .inr ⟨t, hcomes, .inr rfl⟩
    | ok a =>
      obtain ⟨v', made⟩ := a
      rw [hresult] at hcomes
      obtain ⟨k, m', hrun, hm', -⟩ := hcomes
      obtain ⟨w, hw, hassigned⟩ := Value.rebuilt_eq_ok hresult
      have hks' : ks ≠ [] := by
        rintro rfl
        exact hkeys (List.map_eq_nil_iff.mp hks)
      have hreplaced := Value.replaced_of_assigned hks' hassigned
      have hread : m.read? storage i = some v := by rwa [Body.value?, hroot] at hv
      have hothers (storage' : Storage) (j : Nat) (hne : (storage', j) ≠ (storage, i)) :
          m'.read? storage' j = m.read? storage' j :=
        hm'.read?.trans (Machine.read?_put_ne hne)
      have hkeys' : R.Keys Γ m' target ks :=
        keys_put hread hks (Value.not_mem_of_assigned hks' hassigned) hothers
      have hholds : R.value? Γ m' target.root = some v' := by
        rw [Body.value?, hroot]
        exact hm'.read?.trans (Machine.read?_put_same hstores)
      have hR' : L.Frames R x m' := { hR with toFramed := hR.toFramed.put.amid hm' }
      refine .inl ⟨w, made, v', k, m', hw, hrun, hreplaced, hholds, ⟨storage, i, hroot, hm'⟩,
        fun storage' j hne => hothers storage' j fun hsame => hne (hsame ▸ hroot), hkeys',
        fun hat hfits => ?_⟩
      have hmakes := path_makes hR' hpath hholds hkeys' hat hfits
      rw [hreplaced.there] at hmakes
      exact hmakes

end Image

section Program

variable {s : Script} {compiler : Nat} {a : Artifact}

/-- Wherever a program assigns to an element of a variable, the code of the assignment replaces that
element, or halts and leaves all variables as they are. Its operands are taken to fit two bytes. -/
theorem element_assignment_changes_one_element (h : (s.compile compiler).1 = .ok a) :
    ∃ text L main, s.Laid a text L main ∧ ∀ R, R = main ∨ L.Defines R →
      ∀ whole J Γ pos target e p q, L.Stands R whole J Γ (.assign pos none target e) p q →
      target.IsPath → target.keys ≠ [] → L.CallFree e → R.Fits p q →
      ∀ (x : Setting) (m : Machine), x.bytecode = a.bytecode → R.Framed m → m.frame.ip = p →
      ∃ v ks n c d make, R.value? Γ m target.root = some v ∧ R.Keys Γ m target ks ∧
        p ≤ c ∧ d ≤ q ∧ L.exprAt R (Γ.skip n) e c d ∧ m.Makes x c d make ∧
        ((∃ w made v' k m', make m.made = .ok (w, made) ∧
            m.loop x (fun _ => false) k = (.unfinished, m') ∧
            L.Assigned R x Γ target q ks w v v' m m') ∨
          ∃ t, m.Fails x m t ∧ (t.IsLimit ∨ v.rebuilt ks make m.made = .error t)) := by
  obtain ⟨text, L, main, hlaid⟩ := script_laid h
  refine ⟨text, L, main, hlaid, fun R hR whole J Γ pos target e p q hstands hpath hkeys hfree
    hfits x m hx hframed hip => ?_⟩
  obtain ⟨rest, z, -, hat⟩ := hstands
  exact (hlaid.frames hR hx hframed).assigns hpath hkeys hfree hat hfits hip

/-- An element of a map in an array. -/
def nestedScript : Script :=
  { Script.ofSource "x[i].a = i".toUTF8 Script.defaultFile Script.defaultExtension with
    bindings := [("x", .array [.map [("a", .bool true), ("b", .bool false)]]), ("i", .int 0)] }

/-- An assignment to a part of an element. -/
def Stmt.isNested : Stmt → Bool
  | .assign _ none (.field _ (.index _ (.name ..) (.name ..)) _) (.name ..) => true
  | _ => false

theorem element_assignment_changes_one_element_nested :
    ∃ a text L main pos target e p q x m, (nestedScript.compile 0).1 = .ok a ∧
      nestedScript.Laid a text L main ∧
      L.Stands main text none nestedScript.names (.assign pos none target e) p q ∧
      target.IsPath ∧ target.keys ≠ [] ∧ L.CallFree e ∧ main.Fits p q ∧
      x.bytecode = a.bytecode ∧ main.Framed m ∧ m.frame.ip = p ∧
      ∃ ks w v v' m', L.Assigned main x nestedScript.names target q ks w v v' m m' := by
  have hcheck : nestedScript.checkOne Stmt.isNested 50 = true := by decide +kernel
  obtain ⟨a, c, h, hkind, hstart⟩ := Script.start_of_check hcheck
  obtain ⟨text, L, main, hlaid, hassigns⟩ := element_assignment_changes_one_element h
  obtain ⟨rfl, q, x, m, m₁, hstands, hfits, hx, hframed, hip, hrun⟩ := hstart hlaid
  unfold Stmt.isNested at hkind
  split at hkind
  · rename_i pos place place₁ place₂ y place₃ i label place₄ z
    obtain ⟨v, ks, -, -, -, -, -, -, -, -, -, -, ⟨w, -, v', -, m', -, -, hassigned⟩ |
      ⟨t, ⟨k, m₂, -, -, hhalted, -⟩, -⟩⟩ := hassigns main (.inl rfl) _ none _ pos _ _ 0 q hstands
        ⟨trivial, trivial⟩ (by simp [Expr.keys]) trivial hfits x m hx hframed hip
    · exact ⟨a, _, L, main, pos, _, _, 0, q, x, m, h, hlaid, hstands, ⟨trivial, trivial⟩,
        by simp [Expr.keys], trivial, hfits, hx, hframed, hip, ks, w, v, v', m', hassigned⟩
    · exact absurd (Machine.loop_unique hrun hhalted nofun nofun).1 nofun
  · cases hkind

/-- Wherever a program assigns to an element of a variable, the code of the assignment evaluates its
parts in the order of its visits: the keys once for each walk that they are part of, the value once.
The variable gets what the walks make of the values that they have found, which is the value of the
variable with the one element replaced if they have all found the same. Operands are taken to fit two
bytes. -/
theorem element_assignment_replays (h : (s.compile compiler).1 = .ok a) :
    ∃ text L main, s.Laid a text L main ∧ ∀ R, R = main ∨ L.Defines R →
      ∀ whole J Γ pos op target e p q, L.Stands R whole J Γ (.assign pos op target e) p q →
      target.keys ≠ [] → R.Fits p q →
      ∀ (x : Setting) (m : Machine), x.bytecode = a.bytecode → R.Framed m → m.frame.ip = p →
      L.Visits R x Γ (target.visits op e) m fun vs m₁ =>
        ∃ walks read w new v', Image.Replayed R x Γ target op q m vs m₁ walks read w new v' := by
  obtain ⟨text, L, main, hlaid⟩ := script_laid h
  refine ⟨text, L, main, hlaid, fun R hR whole J Γ pos op target e p q hstands hkeys hfits x m hx
    hframed hip => ?_⟩
  obtain ⟨rest, z, -, hat⟩ := hstands
  exact (hlaid.frames hR hx hframed).replays hkeys hat hfits hip

/-- The last element of an array, found by a call. -/
def lastElementScript : Script :=
  { Script.ofSource "x[len(x) - 1] += len(x)".toUTF8 Script.defaultFile Script.defaultExtension with
    bindings := [("x", .array [.int 1, .int 2])] }

/-- A compound assignment to an element. -/
def Stmt.isUpdate : Stmt → Bool
  | .assign _ (some _) (.index ..) _ => true
  | _ => false

theorem element_assignment_replays_last_element :
    ∃ a text L main pos op target e p q x m, (lastElementScript.compile 0).1 = .ok a ∧
      lastElementScript.Laid a text L main ∧
      L.Stands main text none lastElementScript.names (.assign pos (some op) target e) p q ∧
      target.keys ≠ [] ∧ main.Fits p q ∧ x.bytecode = a.bytecode ∧ main.Framed m ∧
      m.frame.ip = p ∧ L.Visits main x lastElementScript.names (target.visits (some op) e) m
        fun vs m₁ => ∃ walks read w new v', Image.Replayed main x lastElementScript.names target
          (some op) q m vs m₁ walks read w new v' := by
  have hcheck : lastElementScript.checkOne Stmt.isUpdate 50 = true := by decide +kernel
  obtain ⟨a, c, h, hkind, hstart⟩ := Script.start_of_check hcheck
  obtain ⟨text, L, main, hlaid, hreplays⟩ := element_assignment_replays h
  obtain ⟨rfl, q, x, m, m₁, hstands, hfits, hx, hframed, hip, -⟩ := hstart hlaid
  unfold Stmt.isUpdate at hkind
  split at hkind
  · rename_i pos op place container key e
    exact ⟨a, _, L, main, pos, op, _, e, 0, q, x, m, h, hlaid, hstands, by simp [Expr.keys],
      hfits, hx, hframed, hip, hreplays main (.inl rfl) _ none _ pos (some op) _ e 0 q hstands
        (by simp [Expr.keys]) hfits x m hx hframed hip⟩
  · cases hkind

end Program

end ScriptEngine

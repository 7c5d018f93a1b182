import ScriptEngine.Proofs.Elements.Paths
import ScriptEngine.Proofs.Quiet.Stores
/-!
Assignments to elements of variables. The code reads every container on the way to the element and
rebuilds them from the inside out; the variable gets the outermost one, and all else stays as it is.
-/
namespace ScriptEngine

/-- The variable that a target lies in. -/
def Expr.root : Expr → String
  | .name _ x => x
  | .index _ container _ | .field _ container _ => container.root
  | _ => ""

/-- The keys on the way to a target, the outermost first. -/
def Expr.keys : Expr → List Expr
  | .index _ container key => container.keys ++ [key]
  | .field pos container label => container.keys ++ [.lit pos (.string label)]
  | _ => []

/-- A constant or what a name stands for. -/
def Expr.IsSimple : Expr → Prop
  | .lit .. | .name .. => True
  | _ => False

/-- A variable, or an element of what such an expression yields, with a simple key. -/
def Expr.IsPath : Expr → Prop
  | .name .. => True
  | .index _ container key => container.IsPath ∧ key.IsSimple
  | .field _ container _ => container.IsPath
  | _ => False

/-- What a simple expression stands for in a frame of a body. -/
def Body.key? (R : Body) (Γ : Names) (m : Machine) : Expr → Option Value
  | .lit _ l => some l.value
  | .name _ y => R.value? Γ m y
  | _ => none

/-- The values of keys in a frame of a body. -/
def Body.Keys (R : Body) (Γ : Names) (m : Machine) (place : Expr) (ks : List Value) : Prop :=
  place.keys.map (R.key? Γ m) = ks.map some

/-- Without its last key a path leads to a container. -/
theorem Body.Keys.snoc {R : Body} {Γ : Names} {m : Machine} {place container key : Expr}
    {ks : List Value} (h : R.Keys Γ m place ks) (hplace : place.keys = container.keys ++ [key]) :
    ∃ before k, ks = before ++ [k] ∧ R.Keys Γ m container before ∧ R.key? Γ m key = some k := by
  unfold Keys at h
  rw [hplace, List.map_append] at h
  obtain ⟨before, last, rfl, hbefore, hlast⟩ := List.map_eq_append_iff.mp h.symm
  obtain ⟨k, rfl, hk⟩ := List.map_eq_singleton_iff.mp hlast
  exact ⟨before, k, rfl, hbefore.symm, hk.symm⟩

/-- With one more key a path leads on. -/
theorem Body.Keys.with {R : Body} {Γ : Names} {m : Machine} {place container key : Expr}
    {before : List Value} {k : Value} (h : R.Keys Γ m container before)
    (hplace : place.keys = container.keys ++ [key]) (hk : R.key? Γ m key = some k) :
    R.Keys Γ m place (before ++ [k]) := by
  unfold Keys at h ⊢
  rw [hplace, List.map_append, List.map_append, h]
  exact congrArg (before.map some ++ [·]) hk

namespace Image

open Machine Exec

variable {L : Image} {R : Body} {x : Setting} {m₀ m : Machine} {Γ : Names} {p q : Nat} {pos : Pos}
  {v : Value} {ks : List Value} {place : Expr}

/-- An element of the part that some keys lead to. -/
theorem followed_makes {k : Value}
    (h : m₀.Makes x p q fun made => do
      let (part, made) ← (do return (← v.follow ks, made) : Except Trap (Value × Nat))
      let (k, made) ← (.ok (k, made) : Except Trap (Value × Nat))
      return (← part.element k, made)) :
    m₀.Makes x p q fun made => do return (← v.follow (ks ++ [k]), made) := by
  rw [Value.follow_snoc]
  cases hpart : v.follow ks with
  | error t =>
    rw [hpart] at h
    exact h
  | ok part =>
    rw [hpart] at h
    exact h

section Paths

variable (hR : L.Frames R x m₀)
include hR

theorem key_value {e : Expr} {n : Nat} (he : e.IsSimple) (hat : L.exprAt R (Γ.skip n) e p q) :
    ∃ k, R.key? Γ m₀ e = some k := by
  cases e with
  | lit place l => exact ⟨_, rfl⟩
  | name place y => exact loadAt.value hR hat
  | _ => exact he.elim

theorem key_pushes {e : Expr} {k : Value} {n : Nat} (he : e.IsSimple)
    (hk : R.key? Γ m₀ e = some k) (hat : L.exprAt R (Γ.skip n) e p q) (hfits : R.Fits p q) :
    m₀.Pushes x p q k := by
  cases e with
  | lit place l =>
    cases hk
    exact literalAt.pushes hR hat
  | name place y =>
    have hvalue : R.value? (Γ.skip n) m₀ y = some k := hk
    exact loadAt.pushes hR hvalue hat hfits
  | _ => exact he.elim

/-- Where the code of a path is, its variable and its keys have values. -/
theorem path_values {n : Nat} : {place : Expr} → {p q : Nat} → place.IsPath →
    L.exprAt R (Γ.skip n) place p q →
      ∃ v ks, R.value? Γ m₀ place.root = some v ∧ R.Keys Γ m₀ place ks
  | .name _ y, _, _, _, hat => by
    obtain ⟨v, hv⟩ := loadAt.value hR hat
    exact ⟨v, [], hv, rfl⟩
  | .index _ container key, _, _, hpath, hat => by
    simp only [exprAt] at hat
    obtain ⟨i, j, hc, hi, -⟩ := hat
    rw [Names.skip_skip] at hi
    obtain ⟨v, ks, hv, hks⟩ := path_values hpath.1 hc
    obtain ⟨k, hk⟩ := key_value hR hpath.2 hi
    exact ⟨v, ks ++ [k], hv, hks.with rfl hk⟩
  | .field _ container label, _, _, hpath, hat => by
    simp only [exprAt] at hat
    obtain ⟨i, j, hc, -, -⟩ := hat
    have hinner : container.IsPath := hpath
    obtain ⟨v, ks, hv, hks⟩ := path_values hinner hc
    exact ⟨v, ks ++ [.string label], hv, hks.with rfl rfl⟩

/-- The code of a path leaves the part that the keys lead to. -/
theorem path_makes {n : Nat} : {place : Expr} → {ks : List Value} → {p q : Nat} →
    place.IsPath → R.value? Γ m₀ place.root = some v → R.Keys Γ m₀ place ks →
      L.exprAt R (Γ.skip n) place p q → R.Fits p q →
        m₀.Makes x p q fun made => do return (← v.follow ks, made)
  | .name _ y, ks, _, _, _, hv, hks, hat, hfits => by
    have hnone : ks.map some = [] := hks.symm
    obtain rfl : ks = [] := List.map_eq_nil_iff.mp hnone
    have hvalue : R.value? (Γ.skip n) m₀ y = some v := hv
    exact (loadAt.pushes hR hvalue hat hfits).makes
  | .index _ container key, ks, p, q, hpath, hv, hks, hat, hfits => by
    obtain ⟨before, k, rfl, hbefore, hk⟩ := hks.snoc rfl
    simp only [exprAt] at hat
    obtain ⟨i, j, hc, hi, hhas⟩ := hat
    have hlt := hhas.lt
    have hle := hR.expr_le hc
    have hle' := hR.expr_le hi
    have hcontainer := path_makes hpath.1 hv hbefore hc (hfits.part (Nat.le_refl _) (by omega))
    rw [Names.skip_skip] at hi
    have hkey := (key_pushes hR hpath.2 hk hi (hfits.part (by omega) (by omega))).makes
    exact followed_makes (hR.pairs hcontainer hkey hhas (hfits hhas (by omega) (Nat.le_refl _))
      index_gives)
  | .field place container label, ks, p, q, hpath, hv, hks, hat, hfits => by
    obtain ⟨before, k, rfl, hbefore, hk⟩ := hks.snoc rfl
    obtain rfl : .string label = k := Option.some.inj hk
    simp only [exprAt] at hat
    obtain ⟨i, j, hc, hkey, hhas⟩ := hat
    have hlt := hhas.lt
    have hle := hR.expr_le hc
    have hle' := hkey.le
    have hinner : container.IsPath := hpath
    have hcontainer := path_makes hinner hv hbefore hc (hfits.part (Nat.le_refl _) (by omega))
    exact followed_makes (hR.pairs hcontainer (constantAt.pushes hR hkey).makes hhas
      (hfits hhas (by omega) (Nat.le_refl _)) index_gives)

/-- The code that replaces an element of a container leaves the new container. -/
theorem Frames.replaces {make : Nat → Except Trap (Value × Nat)} {i j l : Nat} {k : Value}
    (hcontainer : m₀.Makes x p i fun made => do return (← v.follow ks, made))
    (hkey : m₀.Makes x i j fun made => .ok (k, made)) (hvalue : m₀.Makes x j l make)
    (hhas : R.Has (some pos) .setIndex 0 0 l q) :
    m₀.Makes x p q fun made => do
      let part ← v.follow ks
      let (w, made) ← make made
      return (← part.replaceElement k w, made) := by
  intro vs m h
  have hfirst := hcontainer vs m h
  cases hpart : v.follow ks with
  | error t =>
    rw [hpart] at hfirst
    exact hfirst
  | ok part =>
    rw [hpart] at hfirst
    refine hfirst.next ?_
    rintro m₁ ⟨h₁, hmade₁⟩
    refine (hkey _ m₁ h₁).next ?_
    rintro m₂ ⟨h₂, hmade₂⟩
    dsimp only at hmade₁ h₂ hmade₂
    change m₀.Comes x m₂ (make m.made >>= fun (w, made) => do
      return (← part.replaceElement k w, made)) _
    rw [← hmade₁, ← hmade₂]
    refine (hvalue _ m₂ h₂).bind ?_
    rintro ⟨w, made⟩ m₃ ⟨h₃, hmade₃⟩
    dsimp only at h₃ hmade₃ ⊢
    rw [List.append_assoc, List.append_assoc] at h₃
    refine (hR.operates hhas ⟨Nat.one_pos, Nat.one_pos⟩ h₃ ?_).bind ?_
    · rw [execute_setIndex h₃.topThree]
      exact gives_yielded _ _
    · rintro u m₄ ⟨h₄, hmade₄⟩
      exact .here ⟨h₄, hmade₄.trans hmade₃⟩

end Paths

section Stores

variable (hR : L.Frames R x m₀)
include hR

omit hR in
/-- What is stored is laid out. -/
theorem storeAt.inner : {place : Expr} → {V : Names → (p q : Nat) → Prop} → {p q : Nat} →
    place.IsPath → L.storeAt R pos V Γ place p q → ∃ n a b, V (Γ.skip n) a b
  | .name .., _, _, _, _, hat => by
    obtain ⟨k, hV, -⟩ := hat
    exact ⟨0, _, k, hV⟩
  | .index .., _, _, _, hpath, hat => by
    obtain ⟨n, -, -, _, d, e, -, -, hV, -⟩ := storeAt.inner hpath.1 hat
    rw [Names.skip_skip] at hV
    exact ⟨_, d, e, hV⟩
  | .field _ container _, _, _, _, hpath, hat => by
    have hinner : container.IsPath := hpath
    obtain ⟨n, -, -, _, d, e, -, -, hV, -⟩ := storeAt.inner hinner hat
    rw [Names.skip_skip] at hV
    exact ⟨_, d, e, hV⟩

/-- Where the code of a store to an element is, the variable and the keys have values. -/
theorem storeAt.values : {place : Expr} → {V : Names → (p q : Nat) → Prop} → place.IsPath →
    place.keys ≠ [] → L.storeAt R pos V Γ place p q →
      ∃ v ks, R.value? Γ m₀ place.root = some v ∧ R.Keys Γ m₀ place ks
  | .name .., _, _, hkeys, _ => absurd rfl hkeys
  | .index _ container key, _, hpath, _, hat => by
    obtain ⟨n, a, b, c, d, -, hc, hi, -, -⟩ := storeAt.inner hpath.1 hat
    rw [Names.skip_skip] at hi
    obtain ⟨v, ks, hv, hks⟩ := path_values hR hpath.1 hc
    obtain ⟨k, hk⟩ := key_value hR hpath.2 hi
    exact ⟨v, ks ++ [k], hv, hks.with rfl hk⟩
  | .field _ container label, _, hpath, _, hat => by
    have hinner : container.IsPath := hpath
    obtain ⟨n, a, b, c, d, -, hc, -, -, -⟩ := storeAt.inner hinner hat
    obtain ⟨v, ks, hv, hks⟩ := path_values hR hinner hc
    exact ⟨v, ks ++ [.string label], hv, hks.with rfl rfl⟩

/-- The code of a store runs the code of what is stored, and puts the variable with the part
replaced in its place. -/
theorem storeAt.comes : {place : Expr} → {ks : List Value} → {V : Names → (p q : Nat) → Prop} →
    (∀ Γ p q, V Γ p q → p ≤ q) → place.IsPath → R.value? Γ m₀ place.root = some v →
      R.Keys Γ m₀ place ks → L.storeAt R pos V Γ place p q → R.Fits p q →
        ∃ storage i n a b, Γ.resolve R.captured place.root = some (storage, i) ∧
          m₀.Stores storage i ∧ V (Γ.skip n) a b ∧ p ≤ a ∧ b ≤ q ∧ ∀ make, m₀.Makes x a b make →
            ∀ m, m₀.Amid [] p m → m₀.Comes x m (v.rebuilt ks make m.made) fun c m' =>
              (m₀.put storage i c.1).Amid [] q m' ∧ m'.made = c.2
  | .name _ y, ks, V, hle, _, hv, hks, hat, hfits => by
    have hnone : ks.map some = [] := hks.symm
    obtain rfl : ks = [] := List.map_eq_nil_iff.mp hnone
    obtain ⟨k, hV, hfill⟩ := hat
    have hstretch : L.Stretch R [] 1 (-1) k q := fillAt.stretch hR.narrow hfill
    obtain ⟨storage, i, hres, hstores, hstore⟩ :=
      hR.stores hfill (hfits.part (hle _ _ _ hV) (Nat.le_refl _))
    refine ⟨storage, i, 0, p, k, hres, hstores, hV, Nat.le_refl _, hstretch.le,
      fun make hmake m h => ?_⟩
    rw [Value.rebuilt_nil]
    exact hstore hmake m h
  | .index _ container key, ks, V, hle, hpath, hv, hks, hat, hfits => by
    obtain ⟨before, k, rfl, hbefore, hk⟩ := hks.snoc rfl
    obtain ⟨storage, i, n, a, b, hres, hstores, ⟨c, d, e, hc, hi, hV, hhas⟩, ha, hb, hstore⟩ :=
      storeAt.comes (fun Γ p q ⟨_, _, _, hc, hi, hV, hhas⟩ => by
        have h₁ := hR.expr_le hc
        have h₂ := hR.expr_le hi
        have h₃ := hle _ _ _ hV
        have h₄ := hhas.lt
        omega) hpath.1 hv hbefore hat hfits
    rw [Names.skip_skip] at hi hV
    have hac := hR.expr_le hc
    have hcd := hR.expr_le hi
    have hde := hle _ _ _ hV
    have heb := hhas.lt
    refine ⟨storage, i, _, d, e, hres, hstores, hV, by omega, by omega, fun make hmake => ?_⟩
    rw [Value.rebuilt_snoc]
    exact hstore _ (hR.replaces (path_makes hR hpath.1 hv hbefore hc
      (hfits.part (by omega) (by omega))) (key_pushes hR hpath.2 hk hi
      (hfits.part (by omega) (by omega))).makes hmake hhas)
  | .field place container label, ks, V, hle, hpath, hv, hks, hat, hfits => by
    obtain ⟨before, k, rfl, hbefore, hk⟩ := hks.snoc rfl
    obtain rfl : .string label = k := Option.some.inj hk
    have hinner : container.IsPath := hpath
    obtain ⟨storage, i, n, a, b, hres, hstores, ⟨c, d, e, hc, hkey, hV, hhas⟩, ha, hb, hstore⟩ :=
      storeAt.comes (fun Γ p q ⟨_, _, _, hc, hkey, hV, hhas⟩ => by
        have h₁ := hR.expr_le hc
        have h₂ := hkey.le
        have h₃ := hle _ _ _ hV
        have h₄ := hhas.lt
        omega) hinner hv hbefore hat hfits
    rw [Names.skip_skip] at hV
    have hac := hR.expr_le hc
    have hcd := hkey.le
    have hde := hle _ _ _ hV
    have heb := hhas.lt
    refine ⟨storage, i, _, d, e, hres, hstores, hV, by omega, by omega, fun make hmake => ?_⟩
    rw [Value.rebuilt_snoc]
    exact hstore _ (hR.replaces (path_makes hR hinner hv hbefore hc
      (hfits.part (by omega) (by omega))) (constantAt.pushes hR hkey).makes hmake hhas)

end Stores

end Image

end ScriptEngine

import ScriptEngine.Proofs.Grammar.Spells
/-!
What a row of tokens says apart from parentheses, commas and semicolons, with map keys counted alike
whether they are names or strings. All rows that spell one tree say the same.
-/
namespace ScriptEngine

namespace Token

/-- All tokens but parentheses, commas and semicolons. -/
def carries : Token → Bool
  | .mark .lparen | .mark .rparen | .mark .comma | .mark .semicolon => false
  | _ => true

/-- The row with the keys of maps, which stand before a colon, as strings. -/
def plainKeys : List Token → List Token
  | .name key :: .mark .colon :: rest => .string key :: .mark .colon :: plainKeys rest
  | t :: rest => t :: plainKeys rest
  | [] => []

def content (ts : List Token) : List Token := (plainKeys ts).filter carries

/-- The row does not begin with a colon, so that it makes no key of a name before it. -/
def Sealed (ts : List Token) : Prop := ts.head? ≠ some (.mark .colon)

variable {ts us vs ws : List Token} {t : Token}

theorem sealed_nil : Sealed [] := nofun

theorem sealed_cons (h : t ≠ .mark .colon) (ts : List Token) : Sealed (t :: ts) :=
  fun hhead => h (Option.some.inj hhead)

theorem Sealed.append (h : Sealed ts) (hus : Sealed us) : Sealed (ts ++ us) := by
  cases ts with
  | nil => exact hus
  | cons t ts => exact h

theorem plainKeys_append (ts : List Token) (h : Sealed us) :
    plainKeys (ts ++ us) = plainKeys ts ++ plainKeys us := by
  fun_induction plainKeys ts with
  | case1 key rest ih => simp only [List.cons_append, plainKeys, ih]
  | case2 t rest hkey ih =>
    rw [List.cons_append, plainKeys.eq_2, ih, List.cons_append]
    rintro key more rfl hmore
    cases rest with
    | nil =>
      rw [List.nil_append] at hmore
      exact h (by rw [hmore]; rfl)
    | cons t' rest =>
      obtain ⟨rfl, -⟩ := List.cons.inj hmore
      exact hkey key rest rfl rfl
  | case3 => rfl

theorem content_append (ts : List Token) (h : Sealed us) :
    content (ts ++ us) = content ts ++ content us := by
  rw [content, plainKeys_append ts h, List.filter_append]
  rfl

theorem content_cons (t : Token) (h : Sealed ts) : content (t :: ts) = content [t] ++ content ts :=
  content_append [t] h

theorem content_key (key : String) (ts : List Token) :
    content (.name key :: .mark .colon :: ts) = content (.string key :: .mark .colon :: ts) := by
  rw [content, content, plainKeys, plainKeys, plainKeys]
  all_goals nofun

/-- Two rows say the same, also behind a name. -/
structure Alike (ts us : List Token) : Prop where
  content : content ts = content us
  left : Sealed ts
  right : Sealed us

namespace Alike

theorem refl (h : Sealed ts) : Alike ts ts := ⟨rfl, h, h⟩

theorem single (h : t ≠ .mark .colon) : Alike [t] [t] := refl (sealed_cons h [])

theorem symm (h : Alike ts us) : Alike us ts := ⟨h.content.symm, h.right, h.left⟩

theorem append (h : Alike ts us) (h' : Alike vs ws) : Alike (ts ++ vs) (us ++ ws) where
  content := by rw [content_append ts h'.left, content_append us h'.right, h.content, h'.content]
  left := h.left.append h'.left
  right := h.right.append h'.right

theorem cons (ht : t ≠ .mark .colon) (h : Alike ts us) : Alike (t :: ts) (t :: us) :=
  (single ht).append h

/-- A token that does not count is left out. -/
theorem drop (ht : t.carries = false) (h : Alike ts us) : Alike (t :: ts) us where
  content := by
    have hnone : Token.content [t] = [] := by
      have hsingle : plainKeys [t] = [t] := by rw [plainKeys.eq_2]; rfl; nofun
      rw [Token.content, hsingle, List.filter_cons_of_neg (by simp [ht]), List.filter_nil]
    rw [content_cons t h.left, hnone, List.nil_append, h.content]
  left := by
    refine sealed_cons ?_ ts
    rintro rfl
    cases ht
  right := h.right

/-- A token that does not count is left out at the end. -/
theorem drop_last (ht : t.carries = false) (h : Alike ts us) : Alike (ts ++ [t]) us := by
  have hlast : Alike (ts ++ [t]) (us ++ []) := h.append ((refl sealed_nil).drop ht)
  rwa [List.append_nil] at hlast

end Alike

/-- All rows of a kind say the same. -/
def Agrees (row : List Token → Prop) : Prop := ∀ ts us, row ts → row us → Alike ts us

theorem agrees_eq (h : Sealed ts) : Agrees (· = ts) := by
  rintro _ _ rfl rfl
  exact .refl h

theorem agrees_name (x : String) : Agrees (· = [.name x]) := agrees_eq nofun

theorem Agrees.grouped {bare : List Token → Prop} (h : Agrees bare) : Agrees (Grouped bare) := by
  have hopen {ts us : List Token} (hts : Grouped bare ts) (hus : bare us) : Alike ts us := by
    induction hts with
    | bare hts => exact h _ _ hts hus
    | group _ ih => exact (ih.drop_last rfl).drop rfl
  intro ts us hts hus
  induction hus with
  | bare hus => exact hopen hts hus
  | group _ ih => exact ((ih.symm.drop_last rfl).drop rfl).symm

theorem Agrees.listed (close : Mark) (hclose : close ≠ .colon) {pieces : List (List Token → Prop)}
    (h : ∀ piece ∈ pieces, Agrees piece) : Agrees (Listed close pieces) := by
  have hlast : Alike [.mark close] [.mark close] := .single fun he => hclose (Token.mark.inj he)
  intro ts us hts hus
  induction hts generalizing us with
  | nil =>
    cases hus with
    | nil => exact hlast
  | last hts =>
    have hpiece := h _ List.mem_cons_self
    cases hus with
    | last hus => exact (hpiece _ _ hts hus).append hlast
    | cons hus hrest =>
      cases hrest with
      | nil => exact (hpiece _ _ hts hus).append (hlast.symm.drop rfl).symm
  | cons hts hmore ih =>
    obtain ⟨hpiece, hpieces⟩ := List.forall_mem_cons.mp h
    cases hus with
    | last hus =>
      cases hmore with
      | nil => exact (hpiece _ _ hts hus).append (hlast.drop rfl)
    | cons hus hrest => exact (hpiece _ _ hts hus).append (.cons nofun (ih hpieces _ hrest))

theorem Agrees.keyed {value : List Token → Prop} (h : Agrees value) (key : String) :
    Agrees (Keyed key value) := by
  have hkeyed {ts us : List Token} (hts : ts = .name key :: .mark .colon :: us ∨
      ts = .string key :: .mark .colon :: us) :
      content ts = content (.string key :: .mark .colon :: us) ∧ Sealed ts := by
    rcases hts with rfl | rfl
    · exact ⟨content_key key us, nofun⟩
    · exact ⟨rfl, nofun⟩
  rintro ts us ⟨vs, hvs, hts⟩ ⟨ws, hws, hus⟩
  have hvalue := h _ _ hvs hws
  refine ⟨(hkeyed hts).1.trans (Eq.trans ?_ (hkeyed hus).1.symm), (hkeyed hts).2, (hkeyed hus).2⟩
  have happend (us : List Token) (hus : Sealed us) : content (.string key :: .mark .colon :: us) =
      content [.string key, .mark .colon] ++ content us := content_append [_, _] hus
  rw [happend vs hvalue.left, happend ws hvalue.right, hvalue.content]

theorem Blank.alike (hts : Blank ts) (hus : Blank us) : Alike ts us := by
  have hnil {ts : List Token} (h : Blank ts) : Alike ts [] := by
    induction ts with
    | nil => exact .refl sealed_nil
    | cons t rest ih =>
      obtain ⟨rfl, hrest⟩ := List.forall_mem_cons.mp h
      exact (ih hrest).drop rfl
  exact ⟨(hnil hts).content.trans (hnil hus).content.symm, (hnil hts).left, (hnil hus).left⟩

end Token

open Token (Grouped Listed Keyed Blank Agrees Alike)

theorem Literal.token_ne (l : Literal) (m : Mark) : l.token ≠ .mark m := by
  rcases l with _ | (_ | _) | _ | _ | _ | _ <;> nofun

mutual

/-- All rows that spell an expression say the same. -/
theorem Expr.agrees_bare : (e : Expr) → Agrees e.Bare
  | .lit _ value => Token.agrees_eq (Token.sealed_cons (value.token_ne _) [])
  | .name _ x => Token.agrees_name x
  | .array _ items => by
    rintro _ _ ⟨us, hus, rfl⟩ ⟨us', hus', rfl⟩
    exact .cons nofun (Agrees.listed .rbracket nofun (Expr.agrees_pieces items) _ _ hus hus')
  | .map _ entries => by
    rintro _ _ ⟨us, hus, rfl⟩ ⟨us', hus', rfl⟩
    exact .cons nofun (Agrees.listed .rbrace nofun (Expr.agrees_entryPieces entries) _ _ hus hus')
  | .unary _ op e => by
    rintro _ _ ⟨us, hus, rfl⟩ ⟨us', hus', rfl⟩
    refine .cons ?_ (e.agrees_bare.grouped _ _ hus hus')
    cases op <;> nofun
  | .binary _ op left right => by
    rintro _ _ ⟨us, vs, hus, hvs, rfl⟩ ⟨us', vs', hus', hvs', rfl⟩
    refine (left.agrees_bare.grouped _ _ hus hus').append
      (.cons ?_ (right.agrees_bare.grouped _ _ hvs hvs'))
    rcases op with _ | _ | _ | _ | c | op
    case order => cases c <;> nofun
    case arith => cases op <;> nofun
    all_goals nofun
  | .call _ callee args => by
    rintro _ _ ⟨us, vs, hus, hvs, rfl⟩ ⟨us', vs', hus', hvs', rfl⟩
    exact (callee.agrees_bare.grouped _ _ hus hus').append
      (.cons nofun (Agrees.listed .rparen nofun (Expr.agrees_pieces args) _ _ hvs hvs'))
  | .index _ target index => by
    rintro _ _ ⟨us, vs, hus, hvs, rfl⟩ ⟨us', vs', hus', hvs', rfl⟩
    exact (target.agrees_bare.grouped _ _ hus hus').append
      (.cons nofun ((index.agrees_bare.grouped _ _ hvs hvs').append (.single nofun)))
  | .field _ target x => by
    rintro _ _ ⟨us, hus, rfl⟩ ⟨us', hus', rfl⟩
    exact (target.agrees_bare.grouped _ _ hus hus').append (.refl nofun)
  | .func _ params body => by
    rintro _ _ ⟨us, vs, hus, hvs, rfl⟩ ⟨us', vs', hus', hvs', rfl⟩
    refine .cons nofun (.cons nofun (.append (Agrees.listed .rparen nofun ?_ _ _ hus hus')
      (body.agrees _ _ hvs hvs')))
    intro piece hpiece
    obtain ⟨x, -, rfl⟩ := List.mem_map.mp hpiece
    exact Token.agrees_name x
  | .load _ _ => Token.agrees_eq nofun

theorem Expr.agrees_pieces : (items : List Expr) → ∀ piece ∈ Expr.pieces items, Agrees piece
  | [] => nofun
  | e :: rest => List.forall_mem_cons.mpr ⟨e.agrees_bare.grouped, Expr.agrees_pieces rest⟩

theorem Expr.agrees_entryPieces : (entries : List (String × Expr)) →
    ∀ piece ∈ Expr.entryPieces entries, Agrees piece
  | [] => nofun
  | (key, e) :: rest =>
    List.forall_mem_cons.mpr ⟨e.agrees_bare.grouped.keyed key, Expr.agrees_entryPieces rest⟩

theorem Expr.agrees_part : (part : Option Expr) → Agrees (Expr.PartSpells part)
  | none => Token.agrees_eq Token.sealed_nil
  | some e => e.agrees_bare.grouped

/-- All rows that spell a statement say the same. -/
theorem Stmt.agrees : (s : Stmt) → Agrees s.Spells
  | .expr e => e.agrees_bare.grouped
  | .define _ x value => by
    rintro _ _ ⟨us, vs, hus, hvs, rfl⟩ ⟨us', vs', hus', hvs', rfl⟩
    exact ((Token.agrees_name x).grouped _ _ hus hus').append
      (.cons nofun (value.agrees_bare.grouped _ _ hvs hvs'))
  | .assign _ op target value => by
    rintro _ _ ⟨us, vs, hus, hvs, rfl⟩ ⟨us', vs', hus', hvs', rfl⟩
    refine (target.agrees_bare.grouped _ _ hus hus').append
      (.cons ?_ (value.agrees_bare.grouped _ _ hvs hvs'))
    rcases op with _ | op
    · nofun
    · cases op <;> nofun
  | .branch _ cond body orElse => by
    rintro _ _ ⟨us, vs, ws, hus, hvs, hws, rfl⟩ ⟨us', vs', ws', hus', hvs', hws', rfl⟩
    exact .cons nofun ((cond.agrees_bare.grouped _ _ hus hus').append
      ((body.agrees _ _ hvs hvs').append (Stmt.agrees_else orElse _ _ hws hws')))
  | .loop _ init cond post body => by
    rintro _ _ ⟨us, vs, hus, hvs, rfl⟩ ⟨us', vs', hus', hvs', rfl⟩
    refine .cons nofun (.append ?_ (body.agrees _ _ hvs hvs'))
    have hcond := Expr.agrees_part cond
    -- a head with no first and no last part may leave out its semicolons
    have hshort {cs is cs' ps : List Token} (hinit : init = none) (hpost : post = none)
        (hcs : Expr.PartSpells cond cs) (his : Stmt.PartSpells init is)
        (hcs' : Expr.PartSpells cond cs') (hps : Stmt.PartSpells post ps) :
        Alike (is ++ .mark .semicolon :: (cs' ++ .mark .semicolon :: ps)) cs := by
      subst hinit hpost
      obtain rfl : is = [] := his
      obtain rfl : ps = [] := hps
      exact ((hcond _ _ hcs' hcs).drop_last rfl).drop rfl
    rcases hus with ⟨hinit, hpost, hcs⟩ | ⟨is, cs, ps, his, hcs, hps, rfl⟩
    · rcases hus' with ⟨-, -, hcs'⟩ | ⟨is', cs', ps', his', hcs', hps', rfl⟩
      · exact hcond _ _ hcs hcs'
      · exact (hshort hinit hpost hcs his' hcs' hps').symm
    · rcases hus' with ⟨hinit, hpost, hcs'⟩ | ⟨is', cs', ps', his', hcs', hps', rfl⟩
      · exact hshort hinit hpost hcs' his hcs hps
      · exact (Stmt.agrees_part init _ _ his his').append (.cons nofun ((hcond _ _ hcs hcs').append
          (.cons nofun (Stmt.agrees_part post _ _ hps hps'))))
  | .breakLoop _ | .continueLoop _ => Token.agrees_eq nofun
  | .returnValue _ value => by
    rintro _ _ ⟨us, hus, rfl⟩ ⟨us', hus', rfl⟩
    exact .cons nofun (Expr.agrees_part value _ _ hus hus')
  | .exportValue _ value => by
    rintro _ _ ⟨us, hus, rfl⟩ ⟨us', hus', rfl⟩
    exact .cons nofun (value.agrees_bare.grouped _ _ hus hus')
  | .block body => body.agrees

theorem Stmt.agrees_part : (part : Option Stmt) → Agrees (Stmt.PartSpells part)
  | none => Token.agrees_eq Token.sealed_nil
  | some s => s.agrees

theorem Stmt.agrees_else : (part : Option Stmt) → Agrees (Stmt.ElseSpells part)
  | none => Token.agrees_eq Token.sealed_nil
  | some s => by
    rintro _ _ ⟨us, hus, rfl⟩ ⟨us', hus', rfl⟩
    exact .cons nofun (s.agrees _ _ hus hus')

theorem Block.agrees : (body : Block) → Agrees body.Spells
  | .mk _ body => by
    rintro _ _ ⟨us, hus, rfl⟩ ⟨us', hus', rfl⟩
    exact .cons nofun ((Stmt.agrees_all body _ _ hus hus').append (.single nofun))

/-- All rows that spell statements say the same. -/
theorem Stmt.agrees_all : (body : List Stmt) → Agrees (Stmt.AllSpells body)
  | [] => fun _ _ => Blank.alike
  | s :: rest => by
    rintro _ _ ⟨us, vs, ws, hus, hvs, hws, rfl⟩ ⟨us', vs', ws', hus', hvs', hws', rfl⟩
    exact (Blank.alike hus hus').append ((s.agrees _ _ hvs hvs').append
      (Stmt.agrees_all rest _ _ hws hws'))

end

end ScriptEngine

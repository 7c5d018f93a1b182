import ScriptEngine.Proofs.Joining.Parser
import ScriptEngine.Proofs.Joining.Scan
import ScriptEngine.Proofs.Printing.Program
/-! A line break separates programs: no statement of the first goes on in the second. -/
namespace ScriptEngine

namespace Parser

variable {fuel fuel' n : Nat} {found all b : List Stmt} {input rest : List Lexeme} {l : Lexeme}

/-- A statement takes at least one token. -/
theorem length_of_statement {s : Stmt} (h : statement fuel input = .ok (s, rest)) :
    rest.length < input.length := by
  obtain ⟨taken, rfl, us, vs, hs, -, htaken⟩ := (accepts fuel).statement.run input s rest nofun h
  have hpos : 0 < taken.length := by
    have hlength := congrArg List.length htaken
    have hus := List.length_pos_of_ne_nil hs.ne_nil
    rw [List.length_map, List.length_append] at hlength
    omega
  rw [List.length_append]
  omega

theorem statements_semicolon (h : l.token = .mark .semicolon) (fuel : Nat) (found : List Stmt)
    (rest : List Lexeme) : statements (fuel + 1) found (l :: rest) = statements fuel found rest := by
  obtain ⟨t, pos, stop, fresh⟩ := l
  obtain rfl : t = .mark .semicolon := h
  rfl

theorem statements_cons (h : l.token ≠ .mark .semicolon) (fuel : Nat) (found : List Stmt)
    (rest : List Lexeme) : statements (fuel + 1) found (l :: rest) =
      (statement fuel >>= fun s => statements fuel (s :: found)) (l :: rest) := by
  obtain ⟨t, pos, stop, fresh⟩ := l
  cases t with
  | mark k =>
    cases k with
    | semicolon => exact absurd rfl h
    | _ => rfl
  | _ => rfl

/-- Behind the statements of a text come those of the text that follows. -/
theorem Joint.statements_put {J : Joint}
    (hb : ∀ fuel found, n ≤ fuel → statements fuel found J.tail = .ok (found.reverse ++ b, []))
    (hrun : statements fuel found input = .ok (all, []))
    (hfuel : fuel ≤ fuel') (hn : input.length + n ≤ fuel') :
    ∃ more, all = found.reverse ++ more ∧ ∀ found', statements fuel' found' (J.put input) =
      .ok (found'.reverse ++ (more.map (Stmt.moved J.move) ++ b), []) := by
  -- each round takes a token of the first text, so that enough rounds are left for the second
  induction fuel generalizing fuel' found input with
  | zero => cases hrun
  | succ fuel ih =>
    obtain _ | fuel' := fuel'
    · cases hfuel
    have hless := Nat.le_of_succ_le_succ hfuel
    rcases input with _ | ⟨l, rest⟩
    · cases hrun
      refine ⟨[], (List.append_nil _).symm, fun found' => ?_⟩
      exact hb _ found' (Nat.le_trans (Nat.le_add_left ..) hn)
    rw [List.length_cons] at hn
    by_cases hl : l.token = .mark .semicolon
    · rw [statements_semicolon hl] at hrun
      obtain ⟨more, hall, hmore⟩ := ih hrun hless (by omega)
      refine ⟨more, hall, fun found' => ?_⟩
      exact (statements_semicolon (l := l.moved J.move J.bytes) hl ..).trans (hmore found')
    · rw [statements_cons hl] at hrun
      obtain ⟨s, middle, hs, hrun⟩ := run_of_bind hrun
      have hshorter := length_of_statement hs
      rw [List.length_cons] at hshorter
      obtain ⟨middle', hmiddle, hs'⟩ := (J.extends_of_le hless).statement.run _ s middle nofun hs
      have hstep (found' : List Stmt) : statements (fuel' + 1) found' (J.put (l :: rest)) =
          statements fuel' (s.moved J.move :: found') middle' :=
        (statements_cons (l := l.moved J.move J.bytes) hl ..).trans (Joint.bind_run hs')
      rcases hmiddle with rfl | ⟨rfl, first, htail, hfirst⟩
      · obtain ⟨more, hall, hmore⟩ := ih hrun hless (by omega)
        refine ⟨s :: more, by simpa using hall, fun found' => ?_⟩
        rw [hstep, hmore]
        simp
      · have hall : all = (s :: found).reverse := by
          cases fuel with
          | zero => cases hrun
          | succ fuel => cases hrun; rfl
        refine ⟨[s], by simpa using hall, fun found' => ?_⟩
        have hlast := hb (fuel' + 1) (s.moved J.move :: found') (by omega)
        rw [htail, statements_semicolon hfirst] at hlast
        rw [hstep, hlast]
        simp

/-- A program does not begin with `else`. -/
theorem whole_of_statements (h : statements fuel found input = .ok (all, rest)) :
    ∀ l ∈ input.head?, l.token ≠ .keyword .«else» := by
  intro l hl htoken
  obtain ⟨more, rfl⟩ := List.head?_eq_some_iff.mp hl
  have hbarred : Barred (l :: more) := fun l' hl' => Option.some.inj hl' ▸ htoken
  cases fuel with
  | zero => cases h
  | succ fuel =>
    rw [statements_cons (by rw [htoken]; nofun)] at h
    exact (hbarred.statement fuel).bind all rest h

/-- Tokens that are read as statements are read so behind other ones if they start a line. -/
theorem statements_joined {ls ms : List Lexeme} {a : List Stmt} (σ : Pos → Pos) (bytes : Nat)
    (ha : statements (depthPerToken * (ls.length + 1)) [] ls = .ok (a, []))
    (hb : statements (depthPerToken * (ms.length + 1)) [] ms = .ok (b, []))
    (hfresh : ∀ l ∈ ms.head?, l.newlineBefore = true) :
    statements (depthPerToken * ((ls ++ ms.map (Lexeme.moved σ bytes)).length + 1)) []
      (ls ++ ms.map (Lexeme.moved σ bytes)) = .ok (a ++ Stmt.allMoved σ b, []) := by
  unfold depthPerToken at ha hb ⊢
  -- the second row alone, at its new place
  have hmoved (fuel : Nat) (found : List Stmt) (hfuel : 16 * (ms.length + 1) ≤ fuel) :
      statements fuel found (ms.map (Lexeme.moved σ bytes)) =
        .ok (found.reverse ++ Stmt.allMoved σ b, []) := by
    let J : Joint := ⟨σ, bytes, [], nofun, nofun⟩
    have hend (fuel : Nat) (found : List Stmt) (h : 1 ≤ fuel) :
        statements fuel found J.tail = .ok (found.reverse ++ [], []) := by
      obtain _ | fuel := fuel
      · cases h
      rw [List.append_nil]
      rfl
    obtain ⟨more, hmore, hrun⟩ := J.statements_put hend hb hfuel (by omega)
    obtain rfl : b = more := hmore
    have hput : J.put ms = ms.map (Lexeme.moved σ bytes) := List.append_nil _
    rw [← hput, hrun, List.append_nil, Stmt.allMoved_eq]
  -- the first row with the second behind it
  let J : Joint :=
    { move := id
      bytes := 0
      tail := ms.map (Lexeme.moved σ bytes)
      fresh := by
        intro l hl
        rw [List.head?_map] at hl
        obtain ⟨l', hl', rfl⟩ := Option.map_eq_some_iff.mp hl
        exact hfresh l' hl'
      whole := by
        intro l hl
        rw [List.head?_map] at hl
        obtain ⟨l', hl', rfl⟩ := Option.map_eq_some_iff.mp hl
        exact whole_of_statements hb l' hl' }
  have hput : J.put ls = ls ++ ms.map (Lexeme.moved σ bytes) := by
    have hid : Lexeme.moved id 0 = id := rfl
    rw [Joint.put, hid, List.map_id]
  have hlength : (J.put ls).length = ls.length + ms.length := by
    rw [hput, List.length_append, List.length_map]
  have hfuel : 16 * (ls.length + 1) ≤ 16 * ((J.put ls).length + 1) := by omega
  obtain ⟨more, hmore, hrun⟩ := J.statements_put hmoved ha hfuel (by omega)
  obtain rfl : a = more := hmore
  have hsame : a.map (Stmt.moved id) = a := by
    rw [← Stmt.allMoved_eq, Stmt.allMoved_id]
  rw [← hput, hrun, hsame]
  rfl

end Parser

/-- A line break separates programs. Two texts that are read as programs are read, with a line break
between them, as the statements of the first and then those of the second, which stand as many bytes
and lines further on as the first text and the break take. -/
theorem parse_lines {above below file file' : String} {a b : List Stmt}
    (ha : parse file above.toUTF8 = .ok a) (hb : parse file' below.toUTF8 = .ok b) (file'' : String) :
    parse file'' (above ++ "\n" ++ below).toUTF8 = .ok (a ++ Stmt.allMoved
      (Pos.shift (above.utf8ByteSize + 1) (above.toList.count '\n' + 1)) b) := by
  rw [parse_toUTF8] at ha hb ⊢
  obtain ⟨ls, hls, hruna⟩ := parseText_ok ha
  obtain ⟨ms, hms, hrunb⟩ := parseText_ok hb
  have hfresh : ∀ l ∈ ms.head?, l.newlineBefore = true := by
    have h := Lexeme.scanFrom_fresh below.toList 0 .start
    rwa [← Lexeme.scan, hms] at h
  have hbytes : String.utf8Len above.toList = above.utf8ByteSize := by
    rw [← String.utf8ByteSize_ofList, String.ofList_toList]
  have hscan := Lexeme.scan_line hls hms
  rw [hbytes] at hscan
  have htext : (above ++ "\n" ++ below).toList = above.toList ++ '\n' :: below.toList := by
    rw [String.toList_append, String.toList_append, List.append_assoc]
    rfl
  rw [htext]
  exact parseText_of_statements hscan (Parser.statements_joined _ _ hruna hrunb hfresh)

/-- A comment ends with its line, and a parenthesis on the next line makes no call. -/
theorem parse_lines_call :
    parse "m" "f // g".toUTF8 = .ok [.expr (.name ⟨0, 1, 1⟩ "f")] ∧
    parse "m" "(1)".toUTF8 = .ok [.expr (.lit ⟨1, 1, 2⟩ (.int 1))] ∧
    parse "m" ("f // g" ++ "\n" ++ "(1)").toUTF8 = .ok ([.expr (.name ⟨0, 1, 1⟩ "f")] ++
      Stmt.allMoved (Pos.shift ("f // g".utf8ByteSize + 1) ("f // g".toList.count '\n' + 1))
        [.expr (.lit ⟨1, 1, 2⟩ (.int 1))]) := by
  have ha : parse "m" "f // g".toUTF8 = .ok [.expr (.name ⟨0, 1, 1⟩ "f")] := by
    have hscan : Lexeme.scan "f // g".toList = ([⟨.name "f", ⟨0, 1, 1⟩, 1, true⟩], none) := rfl
    rw [parse_toUTF8]
    exact parseText_of_statements hscan (by cbv)
  have hb : parse "m" "(1)".toUTF8 = .ok [.expr (.lit ⟨1, 1, 2⟩ (.int 1))] := by
    have hscan : Lexeme.scan "(1)".toList = ([⟨.mark .lparen, ⟨0, 1, 1⟩, 1, true⟩,
      ⟨.int 1, ⟨1, 1, 2⟩, 2, false⟩, ⟨.mark .rparen, ⟨2, 1, 3⟩, 3, false⟩], none) := rfl
    rw [parse_toUTF8]
    exact parseText_of_statements hscan (by cbv)
  exact ⟨ha, hb, parse_lines ha hb "m"⟩

end ScriptEngine

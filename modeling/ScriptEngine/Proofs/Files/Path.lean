import Mathlib.Data.String.Basic
import Mathlib.Data.List.TakeWhile
import Mathlib.Data.List.Perm.Subperm
import Mathlib.Data.Nat.Digits.Lemmas
import ScriptEngine.Files.Path
/-!
Paths as their pieces. What a path is made of, whether it is absolute, and what an extension or the way
up to the directory makes of it is told by the pieces between its slashes.
-/
namespace ScriptEngine.Path

variable {cs ds : List Char} {path : String} {ps front idles : List String} {name piece : String}

section Pieces

theorem splitSlashes_ne_nil (cs : List Char) : splitSlashes cs ≠ [] := by
  induction cs with
  | nil => simp [splitSlashes]
  | cons c rest ih =>
    obtain ⟨piece, pieces, h⟩ := List.exists_cons_of_ne_nil ih
    rw [splitSlashes, h]
    dsimp only
    split <;> simp

theorem splitSlashes_slash (cs : List Char) : splitSlashes ('/' :: cs) = [] :: splitSlashes cs := by
  obtain ⟨piece, pieces, h⟩ := List.exists_cons_of_ne_nil (splitSlashes_ne_nil cs)
  rw [splitSlashes, h]
  rfl

theorem splitSlashes_append_slash (cs ds : List Char) :
    splitSlashes (cs ++ '/' :: ds) = splitSlashes cs ++ splitSlashes ds := by
  induction cs with
  | nil => exact splitSlashes_slash ds
  | cons c rest ih =>
    obtain ⟨piece, pieces, h⟩ := List.exists_cons_of_ne_nil (splitSlashes_ne_nil rest)
    rw [List.cons_append, splitSlashes, ih, splitSlashes, h]
    simp only [List.cons_append]
    split <;> rfl

theorem splitSlashes_of_notMem (h : '/' ∉ cs) : splitSlashes cs = [cs] := by
  induction cs with
  | nil => rfl
  | cons c rest ih =>
    obtain ⟨hc, hrest⟩ := not_or.mp (List.mem_cons.not.mp h)
    rw [splitSlashes, ih hrest]
    exact if_neg fun hslash => hc hslash.symm

theorem notMem_of_splitSlashes {piece : List Char} (h : piece ∈ splitSlashes cs) : '/' ∉ piece := by
  induction cs generalizing piece with
  | nil => simp_all [splitSlashes]
  | cons c rest ih =>
    obtain ⟨first, pieces, hrest⟩ := List.exists_cons_of_ne_nil (splitSlashes_ne_nil rest)
    rw [hrest] at ih
    rw [splitSlashes, hrest] at h
    dsimp only at h
    split at h
    · rcases List.mem_cons.mp h with rfl | h
      · exact List.not_mem_nil
      · exact ih h
    · rename_i hc
      rcases List.mem_cons.mp h with rfl | h
      · exact List.mem_cons.not.mpr (not_or.mpr ⟨fun hslash => hc hslash.symm, ih List.mem_cons_self⟩)
      · exact ih (List.mem_cons_of_mem _ h)

theorem pieces_ne_nil (path : String) : pieces path ≠ [] := by
  simp [pieces, splitSlashes_ne_nil]

theorem notMem_of_pieces (h : piece ∈ pieces path) : '/' ∉ piece.toList := by
  obtain ⟨text, htext, rfl⟩ := List.mem_map.mp h
  rw [String.toList_ofList]
  exact notMem_of_splitSlashes htext

theorem pieces_slash (front path : String) :
    pieces (front ++ "/" ++ path) = pieces front ++ pieces path := by
  simp [pieces, splitSlashes_append_slash]

theorem eq_empty_of_pieces (h : pieces path = [""]) : path = "" := by
  have hsplit : splitSlashes path.toList = [[]] := by
    have hmap := congrArg (List.map String.toList) h
    simpa [pieces, Function.comp_def] using hmap
  rw [← String.toList_eq_nil_iff]
  cases hpath : path.toList with
  | nil => rfl
  | cons c rest =>
    obtain ⟨piece, pieces, hrest⟩ := List.exists_cons_of_ne_nil (splitSlashes_ne_nil rest)
    rw [hpath, splitSlashes, hrest] at hsplit
    dsimp only at hsplit
    split at hsplit <;> simp at hsplit

/-- Pieces that were put together are the pieces of the path. -/
theorem pieces_ofPieces (hne : ps ≠ []) (hps : ∀ p ∈ ps, '/' ∉ p.toList) : pieces (ofPieces ps) = ps := by
  induction ps with
  | nil => exact absurd rfl hne
  | cons p rest ih =>
    have hp : pieces p = [p] := by
      simp [pieces, splitSlashes_of_notMem (hps p List.mem_cons_self)]
    cases rest with
    | nil => simpa [ofPieces] using hp
    | cons q rest =>
      have hrest := ih (by simp) fun r hr => hps r (List.mem_cons_of_mem _ hr)
      have hjoin : ofPieces (p :: q :: rest) = p ++ "/" ++ ofPieces (q :: rest) := by
        simp [ofPieces, String.append_assoc]
      rw [hjoin, pieces_slash, hp, hrest]
      rfl

theorem ofPieces_append (front : List String) (last text : String) :
    ofPieces (front ++ [last]) ++ text = ofPieces (front ++ [last ++ text]) := by
  induction front with
  | nil => simp [ofPieces]
  | cons p rest ih =>
    obtain ⟨q, tail, htail⟩ := List.exists_cons_of_ne_nil (List.append_ne_nil_of_right_ne_nil rest (List.cons_ne_nil last []))
    obtain ⟨q', tail', htail'⟩ := List.exists_cons_of_ne_nil (List.append_ne_nil_of_right_ne_nil rest (List.cons_ne_nil (last ++ text) []))
    rw [htail, htail'] at ih
    have hjoin (q : String) (tail : List String) :
        ofPieces (p :: q :: tail) = p ++ "/" ++ ofPieces (q :: tail) := by
      simp [ofPieces, String.append_assoc]
    rw [List.cons_append, List.cons_append, htail, htail', hjoin, hjoin, String.append_assoc, ih]

/-- A path is absolute if it has at least two pieces, the first of them empty. -/
theorem isAbsolute_iff : isAbsolute path = true ↔ ∃ rest ≠ [], pieces path = "" :: rest := by
  unfold isAbsolute pieces
  generalize path.toList = cs
  cases cs with
  | nil => simp [splitSlashes]
  | cons c rest =>
    by_cases hc : c = '/'
    · subst hc
      simp [splitSlashes_slash, splitSlashes_ne_nil]
    · obtain ⟨piece, pieces, h⟩ := List.exists_cons_of_ne_nil (splitSlashes_ne_nil rest)
      simp [splitSlashes, h, hc]

end Pieces

/-- Pieces that name nothing. -/
def AllIdle (ps : List String) : Prop := ∀ p ∈ ps, isIdle p = true

section Body

theorem dropWhile_idle (hidles : AllIdle idles) (hname : isIdle name = false) (front : List String) :
    (front ++ name :: idles).reverse.dropWhile isIdle = name :: front.reverse := by
  rw [List.reverse_append, List.reverse_cons, List.append_assoc, List.dropWhile_append_of_pos]
  · simp [hname]
  · exact fun p hp => hidles p (List.mem_reverse.mp hp)

/-- The pieces at the end of a list that name nothing, and the rest in front of them. -/
theorem exists_idle_tail (ps : List String) :
    ∃ idles, AllIdle idles ∧ ps = (ps.reverse.dropWhile isIdle).reverse ++ idles := by
  refine ⟨(ps.reverse.takeWhile isIdle).reverse, fun p hp => ?_, ?_⟩
  · exact List.mem_takeWhile_imp (List.mem_reverse.mp hp)
  · rw [← List.reverse_append, List.takeWhile_append_dropWhile, List.reverse_reverse]

/-- A piece that names something is the last one, or there is none. -/
theorem allIdle_or (ps : List String) : AllIdle ps ∨
    ∃ front name idles, ps = front ++ name :: idles ∧ isIdle name = false ∧ AllIdle idles := by
  induction ps with
  | nil => exact .inl (List.forall_mem_nil _)
  | cons p ps ih =>
    rcases ih with hidle | ⟨front, name, idles, rfl, hname, hidles⟩
    · cases hp : isIdle p with
      | true => exact .inl (List.forall_mem_cons.mpr ⟨hp, hidle⟩)
      | false => exact .inr ⟨[], p, ps, rfl, hp, hidle⟩
    · exact .inr ⟨p :: front, name, idles, rfl, hname, hidles⟩

/-- The pieces of a path are its body and pieces behind that name nothing. -/
theorem exists_body (path : String) :
    ∃ idles, AllIdle idles ∧ pieces path = (reversedBody path).reverse ++ idles := by
  obtain ⟨first, rest, hpieces⟩ := List.exists_cons_of_ne_nil (pieces_ne_nil path)
  obtain ⟨idles, hidles, hrest⟩ := exists_idle_tail rest
  unfold reversedBody
  rw [hpieces]
  dsimp only
  cases hbody : rest.reverse.dropWhile isIdle with
  | nil =>
    rw [hbody] at hrest
    dsimp only
    split
    · rename_i hempty
      obtain ⟨rfl, rfl⟩ : first = "" ∧ rest = [] := by simpa using hempty
      exact ⟨[""], by simp [AllIdle, isIdle], rfl⟩
    · exact ⟨idles, hidles, congrArg (first :: ·) hrest⟩
  | cons last body =>
    refine ⟨idles, hidles, ?_⟩
    rw [hrest, hbody]
    simp

/-- A path has a file name if its last piece that names something does not lead up. -/
theorem fileName?_eq (hpieces : pieces path = front ++ name :: idles) (hname : isIdle name = false)
    (hidles : AllIdle idles) :
    reversedBody path = name :: front.reverse ∧
      fileName? path = if name = ".." then none else some name := by
  have hbody : reversedBody path = name :: front.reverse := by
    unfold reversedBody
    cases front with
    | nil =>
      rw [hpieces]
      have hdrop : idles.reverse.dropWhile isIdle = [] :=
        List.dropWhile_eq_nil_iff.mpr fun p hp => hidles p (List.mem_reverse.mp hp)
      have hne : name ≠ "" := by
        rintro rfl
        simp [isIdle] at hname
      simp [hdrop, hne]
    | cons first front =>
      rw [hpieces, List.cons_append]
      dsimp only
      rw [dropWhile_idle hidles hname]
      simp
  refine ⟨hbody, ?_⟩
  unfold fileName?
  rw [hbody]
  simp [hname]

/-- A file name is the last piece that names something. -/
theorem exists_of_fileName? (h : fileName? path = some name) :
    ∃ front idles, AllIdle idles ∧ pieces path = front ++ name :: idles ∧ isIdle name = false ∧
      name ≠ ".." := by
  obtain ⟨idles, hidles, hpieces⟩ := exists_body path
  unfold fileName? at h
  cases hbody : reversedBody path with
  | nil => simp [hbody] at h
  | cons last front =>
    rw [hbody] at h hpieces
    obtain ⟨hlast, rfl⟩ : (isIdle last = false ∧ last ≠ "..") ∧ last = name := by simpa using h
    exact ⟨front.reverse, idles, hidles, by simpa using hpieces, hlast⟩

/-- A name with an extension is a name. -/
theorem named_extension (hname : isIdle name = false) (extension : String) :
    isIdle (name ++ "." ++ extension) = false ∧ name ++ "." ++ extension ≠ ".." := by
  obtain ⟨hempty, hdot⟩ : name.toList ≠ [] ∧ name ≠ "." := by simpa [isIdle] using hname
  obtain ⟨c, cs, hcs⟩ := List.exists_cons_of_ne_nil hempty
  have hlist {text : String} (h : name ++ "." ++ extension = text) :
      c :: (cs ++ '.' :: extension.toList) = text.toList := by
    rw [← h]
    simp [hcs]
  refine ⟨Bool.eq_false_iff.mpr fun hidle => ?_, fun hup => ?_⟩
  · rcases Bool.or_eq_true_iff.mp hidle with hidle | hidle
    · simpa using hlist (of_decide_eq_true hidle)
    · simpa using hlist (of_decide_eq_true hidle)
  · have hdots : c :: (cs ++ '.' :: extension.toList) = ['.', '.'] := hlist hup
    obtain ⟨rfl, hrest⟩ := List.cons.inj hdots
    cases cs with
    | nil =>
      refine hdot ?_
      rw [← String.toList_inj, hcs]
      rfl
    | cons d ds => simp at hrest

/-- The extension of a path is that of its file name. -/
theorem extension?_congr {path' : String} (h : fileName? path = fileName? path') :
    extension? path = extension? path' := by
  unfold extension?
  rw [h]

/-- An extension is put behind the last piece that names something. -/
theorem pieces_addExtension {extension : String} (hpieces : pieces path = front ++ name :: idles)
    (hname : isIdle name = false) (hup : name ≠ "..") (hidles : AllIdle idles)
    (hslash : '/' ∉ extension.toList) :
    pieces (addExtension path extension) = front ++ [name ++ "." ++ extension] := by
  obtain ⟨hbody, hfile⟩ := fileName?_eq hpieces hname hidles
  rw [if_neg hup] at hfile
  have hjoin : addExtension path extension = ofPieces (front ++ [name ++ "." ++ extension]) := by
    unfold addExtension
    rw [hfile, hbody]
    simp [ofPieces_append, String.append_assoc]
  rw [hjoin]
  refine pieces_ofPieces (by simp) fun p hp => ?_
  have hmem {p : String} (hp : p ∈ pieces path) : '/' ∉ p.toList := notMem_of_pieces hp
  rw [hpieces] at hmem
  rcases List.mem_append.mp hp with hp | hp
  · exact hmem (List.mem_append_left _ hp)
  · obtain rfl := List.mem_singleton.mp hp
    have hlast := hmem (List.mem_append_right front List.mem_cons_self)
    simpa [not_or] using ⟨hlast, hslash⟩

theorem parent_nil (hpieces : pieces path = [name]) (hname : isIdle name = false) : parent path = "" := by
  have hfront : pieces path = [] ++ name :: [] := hpieces
  obtain ⟨hbody, -⟩ := fileName?_eq hfront hname (List.forall_mem_nil _)
  simp [parent, hbody]

/-- The parent of a path is what stands in front of its last piece, without pieces at the end that name
nothing. -/
theorem parent_cons {first : String} {rest : List String} (hpieces : pieces path = first :: rest ++ [name])
    (hname : isIdle name = false) :
    parent path = if (rest.reverse.dropWhile isIdle).reverse = [] ∧ first = "" then "/"
      else ofPieces (first :: (rest.reverse.dropWhile isIdle).reverse) := by
  obtain ⟨hbody, -⟩ := fileName?_eq hpieces hname (List.forall_mem_nil _)
  unfold parent
  rw [hbody, List.drop_one, List.tail_cons, List.reverse_cons]
  split
  · simp_all
  · simp [List.getLastD_eq_getLast?]

end Body

section Count

/-- A path as a number, whose digits are its characters. -/
def number (path : String) : Nat := Nat.ofDigits 0x110001 (path.toList.map fun c => c.toNat + 1)

theorem digit_lt {d : Nat} (hd : d ∈ path.toList.map fun c => c.toNat + 1) : d < 0x110001 := by
  obtain ⟨c, -, rfl⟩ := List.mem_map.mp hd
  have hc : c.toNat < 0x110000 := by
    rcases c.valid with h | ⟨-, h⟩
    · exact Nat.lt_trans h (by decide)
    · exact h
  omega

theorem number_injective : Function.Injective number := by
  have hdigits (path : String) :
      Nat.digits 0x110001 (number path) = path.toList.map fun c => c.toNat + 1 := by
    refine Nat.digits_ofDigits _ (by decide) _ (fun d hd => digit_lt hd) fun hne => ?_
    obtain ⟨c, -, hc⟩ := List.mem_map.mp (List.getLast_mem hne)
    omega
  intro p q h
  have hmap := (hdigits p).symm.trans ((congrArg _ h).trans (hdigits q))
  have hinj : Function.Injective fun c : Char => c.toNat + 1 := by
    intro c d hcd
    exact Char.toNat_inj.mp (Nat.succ.inj hcd)
  exact String.toList_inj.mp (hinj.list_map hmap)

theorem length_le_utf8Len (cs : List Char) : cs.length ≤ String.utf8Len cs := by
  induction cs with
  | nil => exact Nat.zero_le _
  | cons c cs ih =>
    have hc := c.utf8Size_pos
    rw [List.length_cons, String.utf8Len_cons]
    omega

theorem number_lt (h : path.utf8ByteSize < maxSize) : number path < readable := by
  have hlt : number path < 0x110001 ^ (path.toList.map fun c => c.toNat + 1).length :=
    Nat.ofDigits_lt_base_pow_length (by decide) fun d hd => digit_lt hd
  have hlength : path.toList.length ≤ path.utf8ByteSize := by
    have hle := length_le_utf8Len path.toList
    rwa [← String.utf8ByteSize_ofList, String.ofList_toList] at hle
  rw [List.length_map] at hlt
  have hpow (n : Nat) (hn : path.toList.length ≤ n) : number path < Nat.pow 0x110001 n :=
    Nat.lt_of_lt_of_le hlt (Nat.pow_le_pow_right (by decide) hn)
  unfold readable
  exact hpow _ (by omega)

/-- Different paths that are not too long are not more than there are. -/
theorem length_le_readable (hnodup : ps.Nodup) (hsize : ∀ p ∈ ps, p.utf8ByteSize < maxSize) :
    ps.length ≤ readable := by
  have hsub : (ps.map number).Subperm (List.range readable) := by
    refine (hnodup.map number_injective).subperm fun n hn => ?_
    obtain ⟨p, hp, rfl⟩ := List.mem_map.mp hn
    exact List.mem_range.mpr (number_lt (hsize p hp))
  simpa using hsub.length_le

end Count

end ScriptEngine.Path

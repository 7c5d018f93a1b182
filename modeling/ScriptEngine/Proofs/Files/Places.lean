import ScriptEngine.Compile.Import
import ScriptEngine.Proofs.Files.Path
/-!
Where paths lead. Two paths that lead to one directory lead an import to one file, whatever its name
looks like, as long as they lead to a file at all; and a file lies in the directory that its path's
parent leads to.
-/
namespace ScriptEngine

open ScriptEngine.Path (pieces isIdle isAbsolute AllIdle)

namespace ImportOptions

/-- The extension that is put behind a name without one. -/
def added (o : ImportOptions) : String := String.ofList (o.extension.toList.dropWhile (· = '.'))

/-- Nothing is put behind the path. -/
def Keeps (o : ImportOptions) (path : String) : Prop := (Path.extension? path).isSome = true ∨ o.added = ""

end ImportOptions

namespace FileTree

/-- Where a path of these pieces starts. -/
def startOf (t : FileTree) : List String → List String
  | "" :: _ :: _ => []
  | _ => Path.names t.workingDirectory

/-- Where a path leads, without a look at what is there. -/
def lead (t : FileTree) (path : String) : Except ReadFault (List String) :=
  t.walk (t.startOf (pieces path)) (pieces path)

/-- Where the file lies that a path opens. -/
def place? (t : FileTree) (path : String) : Option (List String) :=
  match t.read path with
  | .ok _ => (t.lead path).toOption
  | .error _ => none

/-- The root is no file, and nothing lies in a file. -/
def Sound (t : FileTree) : Prop :=
  ∀ f ∈ t.files, f.1 ≠ [] ∧ (∀ d ∈ t.directories, ¬ f.1 <+: d) ∧
    ¬ f.1 <+: Path.names t.workingDirectory ∧ ∀ g ∈ t.files, f.1 <+: g.1 → f.1 = g.1

variable {t : FileTree} {o : ImportOptions} {place q q' r e : List String} {ps qs front tail : List String}
  {path piece name directory directory' x p p' : String} {contents : ByteArray}

section Start

theorem startOf_isAbsolute (t : FileTree) (path : String) :
    t.startOf (pieces path) = if isAbsolute path then [] else Path.names t.workingDirectory := by
  by_cases h : isAbsolute path = true
  · obtain ⟨rest, hne, hpieces⟩ := Path.isAbsolute_iff.mp h
    obtain ⟨q, tail, rfl⟩ := List.exists_cons_of_ne_nil hne
    rw [if_pos h, hpieces]
    rfl
  · rw [if_neg h]
    unfold startOf
    split
    · rename_i heq
      exact absurd (Path.isAbsolute_iff.mpr ⟨_, List.cons_ne_nil _ _, heq⟩) h
    · rfl

theorem startOf_single (t : FileTree) (p : String) : t.startOf [p] = Path.names t.workingDirectory := by
  unfold startOf
  split
  · simp_all
  · rfl

theorem startOf_cons (t : FileTree) (p : String) (hne : ps ≠ []) :
    t.startOf (p :: ps) = if p = "" then [] else Path.names t.workingDirectory := by
  obtain ⟨q, tail, rfl⟩ := List.exists_cons_of_ne_nil hne
  by_cases hp : p = ""
  · subst hp
    rfl
  · rw [if_neg hp]
    unfold startOf
    split
    · simp_all
    · rfl

/-- Where a path starts does not depend on what follows a first piece that is not empty. -/
theorem startOf_append (t : FileTree) (front : List String) {name name' : String} {tail tail' : List String}
    (hname : name ≠ "") (hname' : name' ≠ "") :
    t.startOf (front ++ name :: tail) = t.startOf (front ++ name' :: tail') := by
  have hstart {n : String} {rest : List String} (hn : n ≠ "") :
      t.startOf (n :: rest) = Path.names t.workingDirectory := by
    cases rest with
    | nil => exact startOf_single t n
    | cons => rw [startOf_cons t n (List.cons_ne_nil _ _), if_neg hn]
  cases front with
  | nil => rw [List.nil_append, List.nil_append, hstart hname, hstart hname']
  | cons first front =>
    rw [List.cons_append, List.cons_append, startOf_cons t first (by simp), startOf_cons t first (by simp)]

theorem startOf_append_ne (t : FileTree) (hfront : front ≠ []) (hps : ps ≠ []) (hqs : qs ≠ []) :
    t.startOf (front ++ ps) = t.startOf (front ++ qs) := by
  obtain ⟨first, rest, rfl⟩ := List.exists_cons_of_ne_nil hfront
  rw [List.cons_append, List.cons_append, startOf_cons t first (by simp [hps]),
    startOf_cons t first (by simp [hqs])]

end Start

section Walk

/-- A walk goes on only from a directory. -/
theorem walk_cons (h : t.walk place (piece :: ps) = .ok q) :
    t.file? place = none ∧ t.isDirectory place = true ∧
      t.walk (if isIdle piece then place else if piece = ".." then place.dropLast else place ++ [piece])
        ps = .ok q := by
  rw [walk] at h
  split at h
  · cases h
  rename_i hfile
  split at h
  · cases h
  rename_i hdirectory
  refine ⟨by simpa using hfile, by simpa using hdirectory, ?_⟩
  split at h
  · rename_i hidle
    rwa [if_pos hidle]
  rename_i hidle
  rw [if_neg hidle]
  split at h
  · rename_i hup
    rwa [if_pos hup]
  rename_i hup
  rw [if_neg hup]
  split at h
  · cases h
  · exact h

theorem walk_append (t : FileTree) (place ps qs : List String) :
    t.walk place (ps ++ qs) = t.walk place ps >>= fun place => t.walk place qs := by
  induction ps generalizing place with
  | nil => rfl
  | cons p ps ih =>
    rw [List.cons_append, walk, walk]
    repeat' split
    all_goals first | exact ih _ | rfl

theorem walk_split (h : t.walk place (ps ++ qs) = .ok q) :
    ∃ between, t.walk place ps = .ok between ∧ t.walk between qs = .ok q := by
  rw [walk_append] at h
  cases hps : t.walk place ps with
  | error fault => simp [hps, bind, Except.bind] at h
  | ok between => exact ⟨between, rfl, by simpa [hps, bind, Except.bind] using h⟩

theorem walk_join (h : t.walk place ps = .ok r) : t.walk place (ps ++ qs) = t.walk r qs := by
  rw [walk_append, h]
  rfl

/-- Pieces that name nothing stay where they are, which is no file. -/
theorem walk_idle (hidle : AllIdle ps) (h : t.walk place ps = .ok q) :
    q = place ∧ (ps ≠ [] → t.file? place = none ∧ t.isDirectory place = true) := by
  induction ps with
  | nil => exact ⟨(Except.ok.inj h).symm, fun hne => absurd rfl hne⟩
  | cons p ps ih =>
    obtain ⟨hfile, hdirectory, hrest⟩ := walk_cons h
    rw [if_pos (hidle p List.mem_cons_self)] at hrest
    exact ⟨(ih (fun r hr => hidle r (List.mem_cons_of_mem _ hr)) hrest).1, fun _ => ⟨hfile, hdirectory⟩⟩

/-- A name leads down from a directory. -/
theorem walk_name (hname : isIdle name = false) (hup : name ≠ "..") (h : t.walk place [name] = .ok q) :
    q = place ++ [name] ∧ t.file? place = none ∧ t.isDirectory place = true := by
  obtain ⟨hfile, hdirectory, hrest⟩ := walk_cons h
  rw [if_neg (by simp [hname]), if_neg hup] at hrest
  exact ⟨(Except.ok.inj hrest).symm, hfile, hdirectory⟩

end Walk

/-- A file that can be read lies where its path leads, and the size of the path is bounded. -/
theorem read_ok (h : t.read path = .ok contents) : path.utf8ByteSize < Path.maxSize ∧
    ∃ place, t.lead path = .ok place ∧ t.file? place = some contents := by
  unfold read at h
  simp only [bind, Except.bind, pure, Except.pure, throw, throwThe, MonadExceptOf.throw,
    ← startOf_isAbsolute] at h
  repeat' split at h
  all_goals cases h
  rename_i hsize _ place hwalk _ hfile
  exact ⟨Nat.not_le.mp hsize, place, hwalk, hfile⟩

theorem place?_eq_some (h : t.place? path = some place) :
    (∃ contents, t.read path = .ok contents ∧ t.file? place = some contents) ∧
      t.lead path = .ok place := by
  unfold place? at h
  cases hread : t.read path with
  | error fault => simp [hread] at h
  | ok contents =>
    obtain ⟨-, place', hlead, hfile⟩ := read_ok hread
    rw [hread, hlead] at h
    obtain rfl : place' = place := Option.some.inj h
    exact ⟨⟨contents, rfl, hfile⟩, hlead⟩

theorem place?_of_read (h : t.read path = .ok contents) : ∃ place, t.place? path = some place := by
  obtain ⟨-, place, hlead, -⟩ := read_ok h
  exact ⟨place, by simp [place?, h, hlead, Except.toOption]⟩

section Parent

theorem mem_of_file? (h : t.file? place = some contents) : ∃ f ∈ t.files, f.1 = place := by
  obtain ⟨f, hf, -⟩ := Option.map_eq_some_iff.mp h
  exact ⟨f, List.mem_of_find?_eq_some hf, by simpa using List.find?_some hf⟩

/-- A directory does not lie in a file. -/
theorem Sound.file?_dropLast (hsound : t.Sound) (h : t.isDirectory place = true) :
    t.file? place.dropLast = none := by
  rw [Option.eq_none_iff_forall_ne_some]
  intro contents hfile
  obtain ⟨f, hf, hplace⟩ := mem_of_file? hfile
  obtain ⟨hroot, hdirectories, hworking, hfiles⟩ := hsound f hf
  have hbelow : f.1 <+: place := hplace ▸ List.dropLast_prefix place
  simp only [isDirectory, Bool.or_eq_true, List.any_eq_true, List.isEmpty_iff, decide_eq_true_eq,
    Bool.and_eq_true, List.isPrefixOf_iff_prefix, ne_eq, decide_not, Bool.not_eq_true',
    decide_eq_false_iff_not] at h
  rcases h with ((rfl | ⟨d, hd, hin⟩) | hin) | ⟨g, hg, hin, hne⟩
  · exact hroot hplace
  · exact hdirectories d hd (hbelow.trans hin)
  · exact hworking (hin ▸ hbelow)
  · -- The file would be the other one, which lies in the directory.
    obtain heq := hfiles g hg (hbelow.trans hin)
    have hle := hin.length_le
    rw [← heq, hplace, List.length_dropLast] at hle
    have hempty : place = [] := List.length_eq_zero_iff.mp (by omega)
    exact hroot (by rw [hplace, hempty]; rfl)

/-- A path that opens a file ends with the name of the file. -/
theorem exists_name (hsound : t.Sound) (h : t.place? path = some place) :
    ∃ front name directory, pieces path = front ++ [name] ∧ isIdle name = false ∧ name ≠ ".." ∧
      t.walk (t.startOf (pieces path)) front = .ok directory ∧ place = directory ++ [name] ∧
      t.file? directory = none ∧ t.isDirectory directory = true := by
  obtain ⟨⟨contents, -, hfile⟩, hlead⟩ := place?_eq_some h
  obtain ⟨front, name, hpieces⟩ : ∃ front name, pieces path = front ++ [name] :=
    ⟨_, _, (List.dropLast_concat_getLast (Path.pieces_ne_nil path)).symm⟩
  have hwalk : t.walk (t.startOf (pieces path)) (front ++ [name]) = .ok place := hpieces ▸ hlead
  obtain ⟨directory, hfront, hlast⟩ := walk_split hwalk
  obtain ⟨hnone, hdirectory, hend⟩ := walk_cons hlast
  have hidle : isIdle name = false := by
    by_contra hidle
    rw [if_pos (by simpa using hidle)] at hend
    obtain rfl := Except.ok.inj hend
    simp [hnone] at hfile
  rw [if_neg (by simp [hidle])] at hend
  have hup : name ≠ ".." := by
    intro hup
    rw [if_pos hup] at hend
    obtain rfl := Except.ok.inj hend
    simp [hsound.file?_dropLast hdirectory] at hfile
  rw [if_neg hup] at hend
  exact ⟨front, name, directory, hpieces, hidle, hup, hfront, (Except.ok.inj hend).symm, hnone, hdirectory⟩

/-- The parent of a file's path leads to the directory that the file lies in. -/
theorem lead_parent (hsound : t.Sound) (h : t.place? path = some place) :
    t.lead (Path.parent path) = .ok place.dropLast := by
  obtain ⟨front, name, directory, hpieces, hname, hup, hwalk, rfl, hnone, hdirectory⟩ :=
    exists_name hsound h
  have hstay : t.walk directory [""] = .ok directory := by
    simp [walk, hnone, hdirectory, isIdle]
  rw [List.dropLast_concat]
  cases front with
  | nil =>
    rw [hpieces, List.nil_append, startOf_single] at hwalk
    obtain rfl := Except.ok.inj hwalk
    rw [Path.parent_nil hpieces hname]
    change t.walk (t.startOf [""]) [""] = _
    rw [startOf_single, hstay]
  | cons first rest =>
    obtain ⟨idles, hidles, hrest⟩ := Path.exists_idle_tail rest
    rw [Path.parent_cons hpieces hname]
    generalize (rest.reverse.dropWhile isIdle).reverse = kept at hrest ⊢
    rw [hpieces, List.cons_append, startOf_cons t first (by simp), hrest, ← List.cons_append] at hwalk
    obtain ⟨between, hbetween, hlast⟩ := walk_split hwalk
    obtain ⟨rfl, -⟩ := walk_idle hidles hlast
    split
    · rename_i hroot
      obtain ⟨rfl, rfl⟩ := hroot
      obtain ⟨rfl, -⟩ := walk_idle (by simp [AllIdle, isIdle]) hbetween
      rw [if_pos rfl] at hnone hdirectory ⊢
      change t.walk [] ["", ""] = _
      simp [walk, hnone, hdirectory, isIdle]
    · rename_i hroot
      have hslash (p : String) (hp : p ∈ first :: kept) : '/' ∉ p.toList := by
        have hmem : p ∈ pieces path := by
          rw [hpieces, hrest, ← List.cons_append]
          exact List.mem_append_left _ (List.mem_append_left _ hp)
        exact Path.notMem_of_pieces hmem
      rw [lead, Path.pieces_ofPieces (List.cons_ne_nil _ _) hslash]
      cases kept with
      | nil =>
        rw [if_neg fun hfirst => hroot ⟨rfl, hfirst⟩] at hbetween
        rw [startOf_single, hbetween]
      | cons second kept => rw [startOf_cons t first (List.cons_ne_nil _ _), hbetween]

end Parent

section Import

/-- A path seen from a directory goes on where the directory's path leads. -/
theorem pieces_join (hx : isAbsolute x = false) (hlead : t.lead directory = .ok e) :
    ∃ front, pieces (Path.join directory x) = front ++ pieces x ∧
      t.walk (t.startOf (front ++ pieces x)) front = .ok e := by
  have hxne : pieces x ≠ [] := Path.pieces_ne_nil x
  have hxstart : t.startOf (pieces x) = Path.names t.workingDirectory := by
    rw [startOf_isAbsolute, hx]
    rfl
  rw [Path.join, if_neg (by simp [hx])]
  split
  · rename_i hdirect
    by_cases hempty : directory = ""
    · subst hempty
      refine ⟨[], by simp, ?_⟩
      have hlead' : t.walk (t.startOf [""]) [""] = .ok e := hlead
      obtain ⟨rfl, -⟩ := walk_idle (by simp [AllIdle, isIdle]) hlead'
      rw [List.nil_append, hxstart, startOf_single]
      rfl
    · have hslash : directory.toList.getLast? = some '/' := by simpa [hempty] using hdirect
      obtain ⟨cs, hcs⟩ := List.getLast?_eq_some_iff.mp hslash
      have hdirectory : directory = String.ofList cs ++ "/" := by
        rw [← String.toList_inj, hcs]
        simp
      have hpieces : pieces directory = pieces (String.ofList cs) ++ [""] := by
        have h := Path.pieces_slash (String.ofList cs) ""
        rw [String.append_empty, ← hdirectory] at h
        exact h
      refine ⟨pieces (String.ofList cs), by rw [hdirectory, Path.pieces_slash], ?_⟩
      rw [lead, hpieces, startOf_append_ne t (Path.pieces_ne_nil _) (List.cons_ne_nil _ _) hxne] at hlead
      obtain ⟨between, hbetween, hlast⟩ := walk_split hlead
      obtain ⟨rfl, -⟩ := walk_idle (by simp [AllIdle, isIdle]) hlast
      exact hbetween
  · rename_i hdirect
    refine ⟨pieces directory, Path.pieces_slash .., ?_⟩
    have hempty : directory ≠ "" := fun h => hdirect (by simp [h])
    have hstart : t.startOf (pieces directory ++ pieces x) = t.startOf (pieces directory) := by
      obtain ⟨first, rest, hpieces⟩ := List.exists_cons_of_ne_nil (Path.pieces_ne_nil directory)
      rw [hpieces, List.cons_append, startOf_cons t first (by simp [hxne])]
      cases rest with
      | nil =>
        rw [startOf_single, if_neg]
        rintro rfl
        exact hempty (Path.eq_empty_of_pieces hpieces)
      | cons => rw [startOf_cons t first (List.cons_ne_nil _ _)]
    rw [hstart]
    exact hlead

/-- Where an import from a directory leads, if its name holds a piece that names something: the walk goes
on from the directory, and the pieces walked do not depend on how the directory is spelled. -/
theorem lead_path_named {extension : String} {joined : String} {xs idles : List String}
    (hjoined : pieces joined = front ++ (xs ++ name :: idles)) (hname : isIdle name = false)
    (hidles : AllIdle idles) (hslash : '/' ∉ extension.toList)
    (hwalk : t.walk (t.startOf (pieces joined)) front = .ok e) :
    t.lead (Path.addExtension joined extension) =
      t.walk e (if name = ".." then xs ++ name :: idles else xs ++ [name ++ "." ++ extension]) := by
  have hpieces : pieces joined = (front ++ xs) ++ name :: idles := by rw [hjoined, List.append_assoc]
  obtain ⟨-, hfile⟩ := Path.fileName?_eq hpieces hname hidles
  by_cases hup : name = ".."
  · rw [if_pos hup] at hfile ⊢
    have hsame : Path.addExtension joined extension = joined := by
      unfold Path.addExtension
      rw [hfile]
    rw [hsame, lead]
    rw [hjoined] at hwalk ⊢
    exact walk_join hwalk
  · rw [if_neg hup]
    have hnew := Path.pieces_addExtension hpieces hname hup hidles hslash
    have hne : name ≠ "" := by
      rintro rfl
      simp [isIdle] at hname
    have hne' : name ++ "." ++ extension ≠ "" := by simp [hne]
    have hstart : t.startOf (front ++ xs ++ [name ++ "." ++ extension]) = t.startOf (pieces joined) := by
      rw [hpieces]
      exact startOf_append t _ hne' hne
    rw [lead, hnew, hstart, List.append_assoc, walk_join hwalk]

/-- If the name of an import holds no such piece, it leads to the directory itself. -/
theorem place?_idle {joined : String} {xs : List String} (hjoined : pieces joined = front ++ xs)
    (hxs : AllIdle xs) (hne : xs ≠ []) (hwalk : t.walk (t.startOf (pieces joined)) front = .ok e) :
    t.place? joined = none := by
  have hjoin : t.lead joined = t.walk e xs := by
    rw [lead]
    rw [hjoined] at hwalk ⊢
    exact walk_join hwalk
  rw [Option.eq_none_iff_forall_ne_some]
  intro q hq
  obtain ⟨⟨contents, -, hfile⟩, hlead⟩ := place?_eq_some hq
  obtain ⟨rfl, hdirectory⟩ := walk_idle hxs (hjoin.symm.trans hlead)
  simp [(hdirectory hne).1] at hfile

/-- With an extension it leads at most to a file that lies beside the directory and has its name. -/
theorem place?_beside {extension : String} {joined : String} {xs : List String}
    (hjoined : pieces joined = front ++ xs) (hxs : AllIdle xs) (hne : xs ≠ [])
    (hslash : '/' ∉ extension.toList) (hwalk : t.walk (t.startOf (pieces joined)) front = .ok e)
    (hq : t.place? (Path.addExtension joined extension) = some q) :
    ∃ r name, e = r ++ [name] ∧ q = r ++ [name ++ "." ++ extension] := by
  cases hfile : Path.fileName? joined with
  | none =>
    have hsame : Path.addExtension joined extension = joined := by
      unfold Path.addExtension
      rw [hfile]
    rw [hsame, place?_idle hjoined hxs hne hwalk] at hq
    cases hq
  | some name =>
    rcases Path.allIdle_or front with hfront | ⟨before, last, idles, rfl, hlast, hidles⟩
    · obtain ⟨before, idles, -, hpieces, hname, -⟩ := Path.exists_of_fileName? hfile
      have hmem : name ∈ front ++ xs := by simp [← hjoined, hpieces]
      rcases List.mem_append.mp hmem with hmem | hmem
      · simp [hfront name hmem] at hname
      · simp [hxs name hmem] at hname
    have hpieces : pieces joined = before ++ last :: (idles ++ xs) := by simp [hjoined]
    have hall : AllIdle (idles ++ xs) := List.forall_mem_append.mpr ⟨hidles, hxs⟩
    obtain ⟨-, hname⟩ := Path.fileName?_eq hpieces hlast hall
    have hup : last ≠ ".." := by
      intro hup
      simp [hname, hup] at hfile
    have hnew := Path.pieces_addExtension hpieces hlast hup hall hslash
    have hempty : last ≠ "" := by
      rintro rfl
      simp [isIdle] at hlast
    have hstart : t.startOf (before ++ [last ++ "." ++ extension]) = t.startOf (pieces joined) := by
      rw [hpieces]
      exact startOf_append t _ (by simp [hempty]) hempty
    obtain ⟨r, hr, hrest⟩ := walk_split hwalk
    obtain ⟨between, hbetween, hlast'⟩ : ∃ between, t.walk r [last] = .ok between ∧
        t.walk between idles = .ok e := walk_split hrest
    obtain ⟨rfl, -⟩ := walk_name hlast hup hbetween
    obtain ⟨rfl, -⟩ := walk_idle hidles hlast'
    obtain ⟨-, hlead⟩ := place?_eq_some hq
    rw [lead, hnew, hstart, walk_join hr] at hlead
    obtain ⟨hidle, hnotUp⟩ := Path.named_extension hlast extension
    obtain ⟨rfl, -⟩ := walk_name hidle hnotUp hlead
    exact ⟨r, last, rfl, rfl⟩

/-- An import is seen from its directory, and its name gets the extension unless there is one. -/
theorem path_cases (h : o.path directory x = .ok p) :
    (o.Keeps (Path.join directory x) ∧ p = Path.join directory x) ∨
      (¬ o.Keeps (Path.join directory x) ∧ '/' ∉ o.added.toList ∧
        p = Path.addExtension (Path.join directory x) o.added) := by
  have hadded : o.added.toList = o.extension.toList.dropWhile (· = '.') := by
    rw [ImportOptions.added, String.toList_ofList]
  have hempty : o.added = "" ↔ (o.extension.toList.dropWhile (· = '.')).isEmpty = true := by
    rw [← String.toList_eq_nil_iff, hadded, List.isEmpty_iff]
  rw [ImportOptions.path] at h
  rw [ImportOptions.Keeps, hempty, ← Bool.or_eq_true]
  split at h
  · rename_i hkeeps
    exact .inl ⟨hkeeps, (Except.ok.inj h).symm⟩
  rename_i hkeeps
  split at h
  · cases h
  rename_i hslash
  exact .inr ⟨hkeeps, by simpa [hadded] using hslash, (Except.ok.inj h).symm⟩

/-- Seen from two paths of one directory, an import leads to one file. -/
theorem place?_unique (hdirectory : o.files.lead directory = .ok e)
    (hdirectory' : o.files.lead directory' = .ok e) (hp : o.path directory x = .ok p)
    (hp' : o.path directory' x = .ok p') (hq : o.files.place? p = some q)
    (hq' : o.files.place? p' = some q') : q = q' := by
  cases hx : isAbsolute x with
  | true =>
    have hjoin (directory : String) : Path.join directory x = x := by simp [Path.join, hx]
    rw [ImportOptions.path, hjoin] at hp hp'
    obtain rfl := Except.ok.inj (hp.symm.trans hp')
    exact Option.some.inj (hq.symm.trans hq')
  | false =>
    obtain ⟨front, hfront, hwalk⟩ := pieces_join hx hdirectory
    obtain ⟨front', hfront', hwalk'⟩ := pieces_join hx hdirectory'
    rw [← hfront] at hwalk
    rw [← hfront'] at hwalk'
    rcases Path.allIdle_or (pieces x) with hidle | ⟨xs, name, idles, hpieces, hname, hidles⟩
    · have hne := Path.pieces_ne_nil x
      rcases path_cases hp with ⟨-, rfl⟩ | ⟨-, hslash, rfl⟩
      · simp [place?_idle hfront hidle hne hwalk] at hq
      rcases path_cases hp' with ⟨-, rfl⟩ | ⟨-, -, rfl⟩
      · simp [place?_idle hfront' hidle hne hwalk'] at hq'
      obtain ⟨r, name, rfl, rfl⟩ := place?_beside hfront hidle hne hslash hwalk hq
      obtain ⟨r', name', he, rfl⟩ := place?_beside hfront' hidle hne hslash hwalk' hq'
      obtain ⟨rfl, hname⟩ := List.append_inj' he rfl
      rw [(List.cons.inj hname).1]
    · have hfile : Path.fileName? (Path.join directory x) = Path.fileName? (Path.join directory' x) := by
        rw [hpieces, ← List.append_assoc] at hfront hfront'
        rw [(Path.fileName?_eq hfront hname hidles).2, (Path.fileName?_eq hfront' hname hidles).2]
      have hkeeps : o.Keeps (Path.join directory x) ↔ o.Keeps (Path.join directory' x) := by
        rw [ImportOptions.Keeps, ImportOptions.Keeps, Path.extension?_congr hfile]
      have hlead : o.files.lead p = o.files.lead p' := by
        rcases path_cases hp with ⟨hkept, rfl⟩ | ⟨hkept, hslash, rfl⟩
        · rcases path_cases hp' with ⟨-, rfl⟩ | ⟨hkept', -⟩
          · rw [hfront] at hwalk
            rw [hfront'] at hwalk'
            rw [lead, lead, hfront, hfront', walk_join hwalk, walk_join hwalk']
          · exact absurd (hkeeps.mp hkept) hkept'
        · rcases path_cases hp' with ⟨hkept', -⟩ | ⟨-, -, rfl⟩
          · exact absurd (hkeeps.mpr hkept') hkept
          · rw [hpieces] at hfront hfront'
            rw [lead_path_named hfront hname hidles hslash hwalk,
              lead_path_named hfront' hname hidles hslash hwalk']
      rw [(place?_eq_some hq).2, (place?_eq_some hq').2] at hlead
      exact Except.ok.inj hlead

end Import

end FileTree

end ScriptEngine

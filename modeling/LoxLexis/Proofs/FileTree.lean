import LoxLexis.Proofs.FileRun

/-!
# Runs over files of a tree

A file that is added to a tree by a path is read by that path (`read_add`), and other paths
read what they read before unless they come by something new (`read_add_of_untouched`).
Whatever is read was put there (`read_cases`). So the command, which takes no more from a
tree than what reading a path gives, scans a text that was added, or complains in one line.

A path is followed name by name. `Place.along` lists the places it comes by, and the facts
on reading are inductions on the names that are left.
-/

namespace LoxLexis

/-! ## Names in a path -/

theorem exists_foldr_consName (s : List Char) (rest : List (List Char)) :
    ∃ first more, s.foldr consName ([] :: rest) = first :: more ++ rest := by
  induction s with
  | nil => exact ⟨[], [], rfl⟩
  | cons c s ih =>
      obtain ⟨first, more, h⟩ := ih
      rw [List.foldr_cons, h]
      by_cases hc : c = '/'
      · exact ⟨[], first :: more, if_pos hc⟩
      · exact ⟨c :: first, more, if_neg hc⟩

theorem foldr_consName_of_slash_not_mem {s : List Char} (h : '/' ∉ s) :
    s.foldr consName [[]] = [s] := by
  induction s with
  | nil => rfl
  | cons c s ih =>
      rw [List.mem_cons, not_or] at h
      rw [List.foldr_cons, ih h.2]
      exact if_neg (Ne.symm h.1)

/-- The last name in a path is the one by which the command calls the file. -/
theorem pathNames_eq_append (path : String) :
    pathNames path = (pathNames path).dropLast ++ [Command.fileName path] := by
  obtain ⟨hslash, hpath⟩ := Command.isFileName_fileName path
  generalize Command.fileName path = name at hslash hpath
  rcases hpath with rfl | ⟨directory, rfl⟩
  · rw [pathNames, foldr_consName_of_slash_not_mem hslash]
    simp
  · obtain ⟨first, more, h⟩ := exists_foldr_consName directory.toList [name.toList]
    have hnames : (directory ++ "/" ++ name).toList.foldr consName [[]]
        = first :: more ++ [name.toList] := by
      rw [toList_directory_append, List.foldr_append, List.foldr_cons,
        foldr_consName_of_slash_not_mem hslash, ← h]
      rfl
    rw [pathNames, hnames, List.map_append, List.map_singleton, List.dropLast_concat,
      String.ofList_toList]

/-! ## Places on the way -/

namespace Place

/-- The places that names lead to from a place, one after the other. -/
def along (place : Place) : List String → List Place
  | [] => []
  | name :: names => place.step name :: along (place.step name) names

/-- Where a path leads. -/
def target (path : String) : Place :=
  (pathNames path).foldl step (ofPath path)

/-- The places a path comes by before its last name. -/
def passed (path : String) : List Place :=
  along (ofPath path) (pathNames path).dropLast

theorem along_concat (place : Place) (names : List String) (name : String) :
    along place (names ++ [name]) = along place names ++ [(names.foldl step place).step name] := by
  induction names generalizing place with
  | nil => rfl
  | cons next names ih => rw [List.cons_append, along, ih, along, List.foldl_cons, List.cons_append]

theorem target_eq (path : String) :
    target path
      = ((pathNames path).dropLast.foldl step (ofPath path)).step (Command.fileName path) := by
  rw [target, pathNames_eq_append, List.foldl_concat, List.dropLast_concat]

theorem along_pathNames (path : String) :
    along (ofPath path) (pathNames path) = passed path ++ [target path] := by
  rw [target_eq, passed, ← along_concat, ← pathNames_eq_append]

end Place

namespace Directory

/-! ## What is added -/

theorem foldl_make (d : Directory) (place : Place) (names : List String) :
    names.foldl make (d, place)
      = (⟨(place.along names).reverse.map (·, .directory) ++ d.entries⟩,
        names.foldl Place.step place) := by
  induction names generalizing d place with
  | nil => rfl
  | cons name names ih =>
      rw [List.foldl_cons, make, ih]
      simp [Place.along]

theorem entries_add (d : Directory) (path : String) (contents : List UInt8) :
    (d.add path contents).entries
      = (Place.target path, .file contents)
          :: ((Place.passed path).reverse.map (·, .directory) ++ d.entries) := by
  have hlast : (pathNames path).getLastD "" = Command.fileName path := by
    rw [pathNames_eq_append, List.getLastD_concat]
  rw [add, foldl_make, hlast, Place.target_eq, Place.passed]

theorem lookup_map_directory (place : Place) (places : List Place) :
    (places.map (·, Entry.directory)).lookup place
      = if place ∈ places then some .directory else none := by
  induction places with
  | nil => rfl
  | cons first places ih =>
      rw [List.map_cons, List.lookup_cons, ih]
      by_cases h : place = first
      · simp [h]
      · rw [beq_eq_false_iff_ne.mpr h]
        simp [h]

/-- A tree after a file was added to it: the file, the directories on its way, and whatever
was in the tree before. -/
theorem lookup_add (d : Directory) (path : String) (contents : List UInt8) (place : Place) :
    (d.add path contents).entries.lookup place
      = if place = Place.target path then some (.file contents)
        else if place ∈ Place.passed path then some .directory
        else d.entries.lookup place := by
  rw [entries_add, List.lookup_cons, List.lookup_append, lookup_map_directory]
  by_cases htarget : place = Place.target path
  · simp [htarget]
  · rw [beq_eq_false_iff_ne.mpr htarget, if_neg htarget]
    by_cases hpassed : place ∈ Place.passed path <;> simp [hpassed]

/-! ## One name -/

theorem follow_of_lookup {d : Directory} {place : Place} {name : String} {entry : Entry}
    (hshort : name.utf8ByteSize ≤ longestName)
    (hlookup : d.entries.lookup (place.step name) = some entry)
    (hname : entry = .directory ∨ name ∉ ["", ".", ".."]) :
    d.follow (place, .directory) name = .ok (place.step name, entry) := by
  unfold follow
  dsimp only
  split
  · -- steps up and on the spot are taken without a look at the entry
    rename_i hstep
    rcases hname with rfl | hname
    · rfl
    · exact absurd (by simpa using hstep) hname
  · rw [if_neg (Nat.not_lt.mpr hshort), hlookup]

/-- What may be wrong with a path. -/
def errors : List ReadError :=
  [.missing, .notADirectory, .isADirectory, .nameTooLong]

/-- All that one name can lead to. Only a directory may be found without an entry. -/
theorem follow_cases (d : Directory) (found : Place × Entry) (name : String) :
    (∃ entry, d.follow found name = .ok (found.1.step name, entry) ∧
      (entry = .directory ∨ d.entries.lookup (found.1.step name) = some entry)) ∨
    ∃ e ∈ errors, d.follow found name = .error e := by
  obtain ⟨place, entry⟩ := found
  cases entry with
  | file contents => exact Or.inr ⟨.notADirectory, by decide, rfl⟩
  | directory =>
      unfold follow
      dsimp only
      split
      · exact Or.inl ⟨.directory, rfl, Or.inl rfl⟩
      split
      · exact Or.inr ⟨.nameTooLong, by decide, rfl⟩
      split
      · rename_i entry hentry
        exact Or.inl ⟨entry, rfl, Or.inr hentry⟩
      · exact Or.inr ⟨.missing, by decide, rfl⟩

/-! ## One path -/

theorem foldlM_follow_of_directories {d : Directory} {names : List String} {place : Place}
    (hshort : ∀ name ∈ names, name.utf8ByteSize ≤ longestName)
    (hplaces : ∀ p ∈ place.along names, d.entries.lookup p = some .directory) :
    names.foldlM d.follow (place, .directory) = .ok (names.foldl Place.step place, .directory) := by
  induction names generalizing place with
  | nil => rfl
  | cons name names ih =>
      have hfollow := follow_of_lookup (hshort name List.mem_cons_self)
        (hplaces _ List.mem_cons_self) (Or.inl rfl)
      rw [List.foldlM_cons, hfollow]
      exact ih (fun n hn => hshort n (List.mem_cons_of_mem name hn))
        fun p hp => hplaces p (List.mem_cons_of_mem _ hp)

/-- Trees that agree on the places a path comes by lead it to the same end. -/
theorem foldlM_follow_congr {d e : Directory} {names : List String} {found : Place × Entry}
    (h : ∀ p ∈ found.1.along names, d.entries.lookup p = e.entries.lookup p) :
    names.foldlM d.follow found = names.foldlM e.follow found := by
  induction names generalizing found with
  | nil => rfl
  | cons name names ih =>
      have hnext : d.follow found name = e.follow found name := by
        obtain ⟨place, _ | contents⟩ := found
        · simp only [follow]
          rw [h _ List.mem_cons_self]
        · rfl
      have hrest : ∀ p ∈ (found.1.step name).along names,
          d.entries.lookup p = e.entries.lookup p :=
        fun p hp => h p (List.mem_cons_of_mem _ hp)
      rw [List.foldlM_cons, List.foldlM_cons, hnext]
      rcases follow_cases e found name with ⟨entry, hok, -⟩ | ⟨error, -, herror⟩
      · rw [hok]
        exact ih hrest
      · rw [herror]
        rfl

theorem foldlM_follow_cases (d : Directory) (names : List String) (found : Place × Entry) :
    (∃ entry, names.foldlM d.follow found = .ok (names.foldl Place.step found.1, entry)) ∨
      ∃ e ∈ errors, names.foldlM d.follow found = .error e := by
  induction names generalizing found with
  | nil => exact Or.inl ⟨found.2, rfl⟩
  | cons name names ih =>
      rw [List.foldlM_cons, List.foldl_cons]
      rcases follow_cases d found name with ⟨entry, hok, -⟩ | ⟨e, he, herror⟩
      · rw [hok]
        exact ih _
      · rw [herror]
        exact Or.inr ⟨e, he, rfl⟩

/-- The last name of a path is followed from where the names before it lead. -/
theorem foldlM_pathNames (d : Directory) (path : String) (found : Place × Entry) :
    (pathNames path).foldlM d.follow found
      = (pathNames path).dropLast.foldlM d.follow found >>= (d.follow · (Command.fileName path)) := by
  conv_lhs => rw [pathNames_eq_append, List.foldlM_append]
  simp only [List.foldlM_cons, List.foldlM_nil, bind_pure]

/-! ## Reading what was added -/

/-- A path by which a file can be added and read. The file has a name, the way to it does not
lead through the file itself, and nothing is too long. -/
structure IsFilePath (path : String) : Prop where
  fileName_not_mem : Command.fileName path ∉ ["", ".", ".."]
  target_not_mem : Place.target path ∉ Place.passed path
  length_le : path.utf8ByteSize ≤ longestPath
  length_name_le : ∀ name ∈ pathNames path, name.utf8ByteSize ≤ longestName

/-- A file that was added is read, whatever was in the tree before. -/
theorem read_add (d : Directory) {path : String} (h : IsFilePath path) (contents : List UInt8) :
    (d.add path contents).read path = .ok contents := by
  have hne : path ≠ "" := by
    rintro rfl
    exact h.fileName_not_mem (by decide)
  have hway : ∀ place ∈ Place.passed path,
      (d.add path contents).entries.lookup place = some .directory := by
    intro place hplace
    rw [lookup_add, if_neg (ne_of_mem_of_not_mem hplace h.target_not_mem), if_pos hplace]
  have hend : (d.add path contents).entries.lookup (Place.target path)
      = some (.file contents) := by
    rw [lookup_add, if_pos rfl]
  have hnames := h.length_name_le
  rw [pathNames_eq_append, List.forall_mem_append, List.forall_mem_singleton] at hnames
  rw [Place.target_eq] at hend
  have hfound : (pathNames path).foldlM (d.add path contents).follow
      (Place.ofPath path, .directory) = .ok (Place.target path, .file contents) := by
    rw [foldlM_pathNames, foldlM_follow_of_directories hnames.1 hway, Place.target_eq]
    dsimp only [bind, Except.bind]
    exact follow_of_lookup hnames.2 hend (Or.inr h.fileName_not_mem)
  rw [read, if_neg hne, if_neg (Nat.not_lt.mpr h.length_le), hfound]

example : IsFilePath "d/../x" := ⟨by decide, by decide, by decide, by decide⟩
example : (empty.add "d/../x" [49]).read "d" = .error .isADirectory := rfl

/-- Adding a file by the path neither puts the file at the place nor makes a directory there
that was missing. -/
structure Untouched (d : Directory) (path : String) (place : Place) : Prop where
  ne_target : place ≠ Place.target path
  lookup_eq : place ∈ Place.passed path → d.entries.lookup place = some .directory

theorem Untouched.lookup_add {d : Directory} {path : String} {place : Place}
    (h : d.Untouched path place) (contents : List UInt8) :
    (d.add path contents).entries.lookup place = d.entries.lookup place := by
  rw [Directory.lookup_add, if_neg h.ne_target]
  split
  · rename_i hpassed
    exact (h.lookup_eq hpassed).symm
  · rfl

/-- A path that comes by nothing new leads where it led before. -/
theorem read_add_of_untouched {d : Directory} {path other : String}
    (h : ∀ place ∈ Place.passed other ++ [Place.target other], d.Untouched path place)
    (contents : List UInt8) : (d.add path contents).read other = d.read other := by
  have hsame : (pathNames other).foldlM (d.add path contents).follow
      (Place.ofPath other, .directory)
        = (pathNames other).foldlM d.follow (Place.ofPath other, .directory) := by
    apply foldlM_follow_congr
    rw [Place.along_pathNames]
    exact fun place hplace => (h place hplace).lookup_add contents
  rw [read, hsame, read]

/-! ## Reading anything -/

theorem foldlM_pathNames_cases (d : Directory) (path : String) :
    let followed := (pathNames path).foldlM d.follow (Place.ofPath path, .directory)
    (∃ entry, followed = .ok (Place.target path, entry) ∧
      (entry = .directory ∨ d.entries.lookup (Place.target path) = some entry)) ∨
    ∃ e ∈ errors, followed = .error e := by
  intro followed
  have hfollowed : followed = _ := foldlM_pathNames d path (Place.ofPath path, .directory)
  rw [hfollowed, Place.target_eq]
  rcases foldlM_follow_cases d (pathNames path).dropLast (Place.ofPath path, .directory) with
    ⟨entry, hway⟩ | ⟨e, he, hway⟩
  · rw [hway]
    exact follow_cases d (_, entry) (Command.fileName path)
  · rw [hway]
    exact Or.inr ⟨e, he, rfl⟩

/-- What is read was put there, and what is wrong with a path is one of four things. -/
theorem read_cases (d : Directory) (path : String) :
    (∃ contents, d.entries.lookup (Place.target path) = some (.file contents) ∧
      d.read path = .ok contents) ∨
    ∃ e ∈ errors, d.read path = .error e := by
  by_cases hempty : path = ""
  · exact Or.inr ⟨.missing, by decide, if_pos hempty⟩
  by_cases hlong : longestPath < path.utf8ByteSize
  · exact Or.inr ⟨.nameTooLong, by decide, by rw [read, if_neg hempty, if_pos hlong]⟩
  rw [read, if_neg hempty, if_neg hlong]
  rcases foldlM_pathNames_cases d path with ⟨entry, hfound, hentry⟩ | ⟨e, he, hfound⟩
  · rw [hfound]
    cases entry with
    | directory => exact Or.inr ⟨.isADirectory, by decide, rfl⟩
    | file contents =>
        rcases hentry with hentry | hentry
        · cases hentry
        · exact Or.inl ⟨contents, hentry, rfl⟩
  · rw [hfound]
    exact Or.inr ⟨e, he, rfl⟩

example : (empty.add "x" [49]).read "d/../x" = .error .missing := rfl
example : (empty.add "x" [49]).read "x/.." = .error .notADirectory := rfl

end Directory

/-! ## The command on a tree -/

namespace Command

/-- A text that was added by a path is scanned under the last name of the path. -/
theorem textRun_run_add (d : Directory) {path : String} (h : Directory.IsFilePath path)
    (text : String) (stdin : List UInt8) :
    TextRun text (fileName path) (run [path] (d.add path text.toUTF8.toList).read stdin) := by
  have hrun : run [path] (d.add path text.toUTF8.toList).read stdin
      = scanFile path ((d.add path text.toUTF8.toList).read path) := rfl
  rw [hrun, d.read_add h]
  exact textRun_scanFile path text

/-- On any tree and path the command scans a text that was put there, or complains in one
line. -/
theorem run_cases (d : Directory) (path : String) (stdin : List UInt8) :
    (∃ text : String, d.entries.lookup (Place.target path) = some (.file text.toUTF8.toList) ∧
      TextRun text (fileName path) (run [path] d.read stdin)) ∨
    ∃ e : ReadError, '\n' ∉ e.message.toList ∧
      run [path] d.read stdin = ⟨.unreadable, "", complaint e⟩ := by
  have hrun : run [path] d.read stdin = scanFile path (d.read path) := rfl
  have hline : ∀ e, e ∈ Directory.errors ∨ e = .notUtf8 → e.InOneLine := by
    rintro e he words rfl
    simp [Directory.errors] at he
  rw [hrun]
  rcases d.read_cases path with ⟨bytes, hentry, hread⟩ | ⟨e, he, hread⟩
  · rw [hread]
    by_cases htext : ∃ text : String, text.toUTF8.toList = bytes
    · obtain ⟨text, rfl⟩ := htext
      exact Or.inl ⟨text, hentry, textRun_scanFile path text⟩
    · exact Or.inr ⟨.notUtf8, ReadError.feed_not_mem_message (hline _ (Or.inr rfl)),
        scanFile_of_not_text path (not_exists.mp htext)⟩
  · rw [hread]
    exact Or.inr ⟨e, ReadError.feed_not_mem_message (hline e (Or.inl he)), rfl⟩

end Command

end LoxLexis

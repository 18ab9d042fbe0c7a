import Mathlib.Data.List.TakeWhile
import MustacheJsx.CommandLine.FileTree
import MustacheJsx.Proofs.Text.Splitting

/-!
# Written places

A place is written with slashes between its names, and a tree holds files by their names. A place
that is written inside a directory has the names of the directory and then its own, whether it is
reached (`FileTree.reached?_join`) or still to be made (`FileTree.place?_join`).
-/

namespace MustacheJsx

namespace Location

/-! ### Names -/

/-- A name as trees hold them: a step to a file or a directory. -/
structure IsName (name : String) : Prop where
  ne_empty : name ≠ ""
  slash : '/' ∉ name.toList
  ne_point : name ≠ "."
  ne_points : name ≠ ".."

instance (name : String) : Decidable (IsName name) :=
  decidable_of_iff (name ≠ "" ∧ '/' ∉ name.toList ∧ name ≠ "." ∧ name ≠ "..")
    ⟨fun ⟨hempty, hslash, hpoint, hpoints⟩ => ⟨hempty, hslash, hpoint, hpoints⟩,
      fun h => ⟨h.ne_empty, h.slash, h.ne_point, h.ne_points⟩⟩

theorem IsName.ne_nil {name : String} (h : IsName name) : name.toList ≠ [] :=
  mt String.toList_eq_nil_iff.1 h.ne_empty

theorem parts_slash (before rest : List Char) :
    parts (String.ofList (before ++ '/' :: rest)) =
      parts (String.ofList before) ++ parts (String.ofList rest) := by
  simp only [parts, String.toList_ofList, Text.splitOn_append, List.filter_append, List.map_append]

variable {names : List String}

theorem parts_ofParts (hnames : ∀ name ∈ names, IsName name) : parts (ofParts names) = names := by
  cases names with
  | nil => rfl
  | cons first names =>
    have hslash : ∀ piece ∈ (first :: names).map String.toList, '/' ∉ piece := by
      intro piece hpiece
      obtain ⟨name, hname, rfl⟩ := List.mem_map.1 hpiece
      exact (hnames name hname).slash
    have hkept : ∀ piece ∈ (first :: names).map String.toList,
        (!piece.isEmpty && piece != ['.']) = true := by
      intro piece hpiece
      obtain ⟨name, hname, rfl⟩ := List.mem_map.1 hpiece
      have hpoint : name.toList ≠ ['.'] := by
        intro heq
        exact (hnames name hname).ne_point (String.toList_inj.1 heq)
      simp [(hnames name hname).ne_empty, hpoint]
    rw [parts, ofParts, String.toList_ofList, Text.splitOn_joinWith (by simp) hslash,
      List.filter_eq_self.2 hkept, List.map_map]
    exact List.map_id'' (fun name => String.ofList_toList) _

theorem parts_join (directory inside : String) :
    parts (join directory inside) = parts directory ++ parts inside := by
  have hslash : ∀ before, parts (String.ofList (before ++ ['/'])) = parts (String.ofList before) :=
    fun before => (parts_slash before []).trans (List.append_nil _)
  rw [join]
  split
  · next hends =>
    rcases Bool.or_eq_true_iff.1 hends with hempty | hlast
    · rw [String.isEmpty_iff.1 hempty, String.empty_append]
      rfl
    · obtain ⟨before, hbefore⟩ := List.getLast?_eq_some_iff.1 (beq_iff_eq.1 hlast)
      have hdirectory : directory = String.ofList (before ++ ['/']) := by
        rw [← hbefore, String.ofList_toList]
      have hjoined : directory ++ inside = String.ofList (before ++ '/' :: inside.toList) := by
        apply String.toList_inj.1
        rw [String.toList_append, hbefore, String.toList_ofList, List.append_assoc]
        rfl
      rw [hjoined, parts_slash, hdirectory, hslash, String.ofList_toList]
  · have hjoined : directory ++ "/" ++ inside =
        String.ofList (directory.toList ++ '/' :: inside.toList) := by
      apply String.toList_inj.1
      simp
    rw [hjoined, parts_slash, String.ofList_toList, String.ofList_toList]

theorem parts_append_slashes (before : List Char) {slashes : List Char}
    (h : ∀ c ∈ slashes, c = '/') :
    parts (String.ofList (before ++ slashes)) = parts (String.ofList before) := by
  induction slashes generalizing before with
  | nil => rw [List.append_nil]
  | cons c slashes ih =>
    obtain ⟨rfl, hslashes⟩ := List.forall_mem_cons.1 h
    have hnothing : parts (String.ofList slashes) = [] := ih [] hslashes
    rw [parts_slash, hnothing, List.append_nil]

theorem parts_parent {before last : List Char} (hlast : '/' ∉ last) :
    parts (parent (String.ofList (before ++ '/' :: last))) = parts (String.ofList before) := by
  have hlast : ∀ c ∈ last.reverse, (c != '/') = true := by
    intro c hc
    rw [bne_iff_ne]
    rintro rfl
    exact hlast (List.mem_reverse.1 hc)
  have hcut : (before ++ '/' :: last).reverse.dropWhile (· != '/') = '/' :: before.reverse := by
    rw [List.reverse_append, List.reverse_cons, List.append_assoc,
      List.dropWhile_append_of_pos hlast]
    rfl
  have hslashes : ∀ c ∈ (before.reverse.takeWhile (· == '/')).reverse, c = '/' := by
    intro c hc
    have hslash := List.mem_takeWhile_imp (List.mem_reverse.1 hc)
    exact beq_iff_eq.1 hslash
  have hbefore : (before.reverse.dropWhile (· == '/')).reverse ++
      (before.reverse.takeWhile (· == '/')).reverse = before := by
    rw [← List.reverse_append, List.takeWhile_append_dropWhile, List.reverse_reverse]
  have hall := parts_append_slashes (before.reverse.dropWhile (· == '/')).reverse hslashes
  rw [hbefore] at hall
  rw [parent, String.toList_ofList, hcut]
  exact hall.symm

/-- The directory of a place without slashes is the one that it is written for. -/
theorem parent_of_not_mem {path : List Char} (h : '/' ∉ path) :
    parent (String.ofList path) = "" := by
  have hpath : ∀ c ∈ path.reverse, (c != '/') = true := by
    intro c hc
    rw [bne_iff_ne]
    rintro rfl
    exact h (List.mem_reverse.1 hc)
  have hnone : path.reverse.dropWhile (· != '/') = [] := List.dropWhile_eq_nil_iff.2 hpath
  rw [parent, String.toList_ofList, hnone]
  rfl

theorem parent_isPrefix (path : String) : (parent path).toList <+: path.toList := by
  rw [parent, String.toList_ofList, ← List.reverse_suffix, List.reverse_reverse]
  exact (List.dropWhile_suffix _).trans (List.dropWhile_suffix _)

end Location

namespace FileTree

open Location

/-! ### Places to be made -/

theorem placeAfter_cons (steps : List String) (part : String) (parts : List String) :
    placeAfter steps (part :: parts) =
      if part = ".." then steps.tail?.bind fun steps => placeAfter steps parts
      else placeAfter (part :: steps) parts := by
  rw [placeAfter.eq_def]
  cases steps <;> rfl

theorem placeAfter_append (steps before rest : List String) :
    placeAfter steps (before ++ rest) =
      (placeAfter steps before).bind fun names => placeAfter names.reverse rest := by
  induction before generalizing steps with
  | nil => rw [List.nil_append, placeAfter.eq_def steps [], Option.bind_some, List.reverse_reverse]
  | cons part before ih =>
    rw [List.cons_append, placeAfter_cons, placeAfter_cons]
    split
    · rw [Option.bind_assoc]
      exact Option.bind_congr fun steps _ => ih steps
    · exact ih (part :: steps)

theorem placeAfter_names {names : List String} (hnames : ∀ name ∈ names, IsName name)
    (steps : List String) : placeAfter steps names = some (steps.reverse ++ names) := by
  induction names generalizing steps with
  | nil => rw [placeAfter.eq_def, List.append_nil]
  | cons name names ih =>
    obtain ⟨hname, hnames⟩ := List.forall_mem_cons.1 hnames
    rw [placeAfter_cons, if_neg hname.ne_points, ih hnames, List.reverse_cons, List.append_assoc]
    rfl

theorem place?_eq_some_iff {path : String} {names : List String} :
    place? path = some names ↔
      path.toList.head? ≠ some '/' ∧ placeAfter [] (parts path) = some names := by
  rw [place?]
  split
  · next h => exact ⟨nofun, fun h' => absurd h h'.1⟩
  · next h => exact ⟨fun hplace => ⟨h, hplace⟩, And.right⟩

theorem head?_ofParts {names : List String} (hnames : ∀ name ∈ names, IsName name) :
    (ofParts names).toList.head? ≠ some '/' := by
  rw [ofParts, String.toList_ofList]
  cases names with
  | nil => exact nofun
  | cons name names =>
    have hname := hnames name List.mem_cons_self
    obtain ⟨c, cs, hchars⟩ := List.exists_cons_of_ne_nil hname.ne_nil
    have hc : c ≠ '/' := by
      rintro rfl
      exact hname.slash (hchars ▸ List.mem_cons_self)
    rw [List.map_cons, hchars]
    cases names with
    | nil => exact fun heq => hc (Option.some.inj heq)
    | cons next names => exact fun heq => hc (Option.some.inj heq)

theorem head?_join {directory inside : String} (hdirectory : directory.toList.head? ≠ some '/')
    (hinside : inside.toList.head? ≠ some '/') :
    (join directory inside).toList.head? ≠ some '/' := by
  have happend : ∀ rest : String, directory ≠ "" → (directory ++ rest).toList.head? ≠ some '/' := by
    intro rest hne
    obtain ⟨c, cs, hchars⟩ :=
      List.exists_cons_of_ne_nil (mt String.toList_eq_nil_iff.1 hne)
    rw [hchars] at hdirectory
    rw [String.toList_append, hchars]
    exact hdirectory
  by_cases hempty : directory = ""
  · rw [hempty, join]
    simpa using hinside
  · rw [join]
    split
    · exact happend inside hempty
    · rw [String.append_assoc]
      exact happend _ hempty

theorem place?_join {directory : String} {names inside : List String}
    (h : place? directory = some names) (hinside : ∀ name ∈ inside, IsName name) :
    place? (join directory (ofParts inside)) = some (names ++ inside) := by
  obtain ⟨hhead, hplace⟩ := place?_eq_some_iff.1 h
  refine place?_eq_some_iff.2 ⟨head?_join hhead (head?_ofParts hinside), ?_⟩
  rw [parts_join, parts_ofParts hinside, placeAfter_append, hplace, Option.bind_some,
    placeAfter_names hinside, List.reverse_reverse]

theorem exists_join (directory inside : String) : ∃ lead,
    (join directory inside).toList = lead ++ inside.toList ∧
      (lead = [] ∨ ∃ before, lead = before ++ ['/']) := by
  rw [join]
  split
  · next hends =>
    refine ⟨directory.toList, String.toList_append, ?_⟩
    rcases Bool.or_eq_true_iff.1 hends with hempty | hlast
    · exact .inl (String.toList_eq_nil_iff.2 (String.isEmpty_iff.1 hempty))
    · exact .inr (List.getLast?_eq_some_iff.1 (beq_iff_eq.1 hlast))
  · exact ⟨directory.toList ++ ['/'], by simp, .inr ⟨_, rfl⟩⟩

theorem exists_ofParts_concat (front : List String) (last : String) : ∃ lead,
    (ofParts (front ++ [last])).toList = lead ++ last.toList ∧
      (lead = [] ∨ ∃ before, lead = before ++ ['/']) := by
  rw [ofParts, String.toList_ofList]
  induction front with
  | nil => exact ⟨[], rfl, .inl rfl⟩
  | cons name front ih =>
    obtain ⟨lead, hlead, hends⟩ := ih
    obtain ⟨next, more, hmore⟩ :=
      List.exists_cons_of_ne_nil (List.append_ne_nil_of_right_ne_nil (front.map String.toList)
        (List.cons_ne_nil last.toList []))
    have hjoin : Text.joinWith '/' ((name :: front ++ [last]).map String.toList) =
        name.toList ++ '/' :: Text.joinWith '/' ((front ++ [last]).map String.toList) := by
      have hnames : (front ++ [last]).map String.toList = next :: more := by
        rw [List.map_append]
        exact hmore
      rw [List.cons_append, List.map_cons, hnames]
      rfl
    refine ⟨name.toList ++ '/' :: lead, ?_, .inr ?_⟩
    · rw [hjoin, hlead]
      simp
    · rcases hends with rfl | ⟨before, rfl⟩
      · exact ⟨name.toList, rfl⟩
      · exact ⟨name.toList ++ '/' :: before, by simp⟩

theorem place?_parent {directory last : String} {names front : List String}
    (h : place? directory = some names) (hinside : ∀ name ∈ front ++ [last], IsName name) :
    place? (parent (join directory (ofParts (front ++ [last])))) = some (names ++ front) := by
  have hlast : IsName last := hinside last (by simp)
  obtain ⟨hhead, hplace⟩ := place?_eq_some_iff.1 h
  have hparts : parts (join directory (ofParts (front ++ [last]))) =
      parts directory ++ front ++ [last] := by
    rw [parts_join, parts_ofParts hinside, List.append_assoc]
  have hown : parts last = [last] := by
    have hall := parts_ofParts (List.forall_mem_singleton.2 hlast)
    rwa [ofParts, List.map_singleton, Text.joinWith, String.ofList_toList] at hall
  have hdirectory : parts (parent (join directory (ofParts (front ++ [last])))) =
      parts directory ++ front := by
    obtain ⟨lead, hjoin, hlead⟩ := exists_join directory (ofParts (front ++ [last]))
    obtain ⟨lead', hlead', hends⟩ := exists_ofParts_concat front last
    rw [hlead', ← List.append_assoc] at hjoin
    have hwhole : lead ++ lead' = [] ∨ ∃ before, lead ++ lead' = before ++ ['/'] := by
      rcases hends with rfl | ⟨before, rfl⟩
      · rwa [List.append_nil]
      · exact .inr ⟨lead ++ before, (List.append_assoc _ _ _).symm⟩
    have hpath := (String.ofList_toList (s := join directory (ofParts (front ++ [last])))).symm
    rw [hjoin] at hpath
    rcases hwhole with hnil | ⟨before, hbefore⟩
    · rw [hnil, List.nil_append] at hpath
      rw [hpath, String.ofList_toList, hown] at hparts
      rw [hpath, parent_of_not_mem hlast.slash]
      have hnames : [] ++ [last] = parts directory ++ front ++ [last] := hparts
      exact List.append_cancel_right hnames
    · rw [hbefore, List.append_assoc, List.singleton_append] at hpath
      rw [hpath, parts_slash, String.ofList_toList, hown] at hparts
      rw [hpath, parts_parent hlast.slash]
      exact List.append_cancel_right hparts
  refine place?_eq_some_iff.2 ⟨fun hslash => ?_, ?_⟩
  · obtain ⟨rest, hrest⟩ := List.head?_eq_some_iff.1 hslash
    have hprefix := parent_isPrefix (join directory (ofParts (front ++ [last])))
    obtain ⟨more, hmore⟩ := hprefix
    rw [hrest] at hmore
    refine head?_join hhead (head?_ofParts hinside) ?_
    rw [← hmore]
    rfl
  · rw [hdirectory, placeAfter_append, hplace, Option.bind_some,
      placeAfter_names fun name hname => hinside name (List.mem_append_left _ hname),
      List.reverse_reverse]

/-! ### Places that are reached -/

variable {tree other : FileTree}

theorem reachedAfter_cons (tree : FileTree) (steps : List String) (part : String)
    (parts : List String) :
    tree.reachedAfter steps (part :: parts) =
      if !tree.isDirectory steps.reverse then none
      else if part = "" || part = "." then tree.reachedAfter steps parts
      else if part = ".." then steps.tail?.bind fun steps => tree.reachedAfter steps parts
      else tree.reachedAfter (part :: steps) parts := by
  rw [reachedAfter.eq_def]
  cases steps <;> rfl

theorem reachedAfter_append (tree : FileTree) (steps before rest : List String) :
    tree.reachedAfter steps (before ++ rest) =
      (tree.reachedAfter steps before).bind fun names => tree.reachedAfter names.reverse rest := by
  induction before generalizing steps with
  | nil =>
    rw [List.nil_append, reachedAfter.eq_def tree steps [], Option.bind_some, List.reverse_reverse]
  | cons part before ih =>
    rw [List.cons_append, reachedAfter_cons, reachedAfter_cons]
    split
    · rfl
    · split
      · exact ih steps
      · split
        · rw [Option.bind_assoc]
          exact Option.bind_congr fun steps _ => ih steps
        · exact ih (part :: steps)

theorem isDirectory_of_isFile {before rest : List String} (hne : rest ≠ [])
    (h : tree.isFile (before ++ rest) = true) : tree.isDirectory before = true := by
  obtain ⟨⟨names, text⟩, hfile, hnames⟩ := List.any_eq_true.1 h
  refine Bool.or_eq_true_iff.2 (.inr (List.any_eq_true.2 ⟨_, hfile, ?_⟩))
  rw [beq_iff_eq.1 hnames]
  simp [hne]

theorem reachedAfter_names {names : List String} (hnames : ∀ name ∈ names, IsName name)
    {steps : List String} (hfile : tree.isFile (steps.reverse ++ names) = true) :
    tree.reachedAfter steps names = some (steps.reverse ++ names) := by
  induction names generalizing steps with
  | nil => rw [reachedAfter.eq_def, List.append_nil]
  | cons name names ih =>
    obtain ⟨hname, hnames⟩ := List.forall_mem_cons.1 hnames
    have hdirectory := isDirectory_of_isFile (List.cons_ne_nil _ _) hfile
    have hsteps : steps.reverse ++ name :: names = (name :: steps).reverse ++ names := by simp
    rw [hsteps] at hfile ⊢
    rw [reachedAfter_cons, hdirectory, Bool.not_true, if_neg Bool.false_ne_true,
      if_neg (by simp [hname.ne_empty, hname.ne_point]), if_neg hname.ne_points, ih hnames hfile]

theorem reached?_eq_some_iff {path : String} {names : List String} :
    tree.reached? path = some names ↔ path ≠ "" ∧ path.toList.head? ≠ some '/' ∧
      tree.reachedAfter [] ((Text.splitOn '/' path.toList).map String.ofList) = some names := by
  rw [reached?]
  split
  · next h =>
    rcases Bool.or_eq_true_iff.1 h with hempty | hslash
    · exact ⟨nofun, fun h' => absurd (String.isEmpty_iff.1 hempty) h'.1⟩
    · exact ⟨nofun, fun h' => absurd (of_decide_eq_true hslash) h'.2.1⟩
  · next h =>
    obtain ⟨hempty, hslash⟩ := not_or.1 (mt Bool.or_eq_true_iff.2 h)
    exact ⟨fun hreached => ⟨mt String.isEmpty_iff.2 hempty, mt decide_eq_true hslash, hreached⟩,
      fun h' => h'.2.2⟩

theorem reached?_join {root : String} {top inside : List String} (h : tree.reached? root = some top)
    (hne : inside ≠ []) (hinside : ∀ name ∈ inside, IsName name)
    (hfile : tree.isFile (top ++ inside) = true) :
    tree.reached? (join root (ofParts inside)) = some (top ++ inside) := by
  obtain ⟨hroot, hhead, hreached⟩ := reached?_eq_some_iff.1 h
  have hnames : (Text.splitOn '/' (ofParts inside).toList).map String.ofList = inside := by
    have hslash : ∀ piece ∈ inside.map String.toList, '/' ∉ piece := by
      intro piece hpiece
      obtain ⟨name, hname, rfl⟩ := List.mem_map.1 hpiece
      exact (hinside name hname).slash
    rw [ofParts, String.toList_ofList, Text.splitOn_joinWith (mt List.map_eq_nil_iff.1 hne) hslash,
      List.map_map]
    exact List.map_id'' (fun name => String.ofList_toList) _
  have hbelow : tree.reachedAfter top.reverse inside = some (top ++ inside) := by
    rw [← List.reverse_reverse top] at hfile
    have hall := reachedAfter_names hinside hfile
    rwa [List.reverse_reverse] at hall
  refine reached?_eq_some_iff.2 ⟨?_, head?_join hhead (head?_ofParts hinside), ?_⟩
  · intro hempty
    have hparts := parts_join root (ofParts inside)
    rw [hempty, parts_ofParts hinside] at hparts
    exact hne (List.append_eq_nil_iff.1 hparts.symm).2
  · rw [join]
    split
    · next hends =>
      rcases Bool.or_eq_true_iff.1 hends with hempty | hlast
      · exact absurd (String.isEmpty_iff.1 hempty) hroot
      · obtain ⟨before, hbefore⟩ := List.getLast?_eq_some_iff.1 (beq_iff_eq.1 hlast)
        rw [hbefore, Text.splitOn_append, List.map_append, reachedAfter_append] at hreached
        obtain ⟨reached, hfirst, hlast⟩ := Option.bind_eq_some_iff.1 hreached
        have hsame : reached = top := by
          have hstays : tree.reachedAfter reached.reverse [""] = some top := hlast
          rw [reachedAfter_cons] at hstays
          split at hstays
          · cases hstays
          · rw [if_pos (by decide), reachedAfter.eq_def, List.reverse_reverse] at hstays
            exact Option.some.inj hstays
        rw [String.toList_append, hbefore, List.append_assoc, List.singleton_append,
          Text.splitOn_append, List.map_append, reachedAfter_append, hfirst, hsame, hnames]
        exact hbelow
    · have hjoined : (root ++ "/" ++ ofParts inside).toList =
          root.toList ++ '/' :: (ofParts inside).toList := by
        simp
      rw [hjoined, Text.splitOn_append, List.map_append, reachedAfter_append, hreached, hnames]
      exact hbelow

theorem reached?_mono {path : String} {names : List String}
    (hmore : ∀ names, tree.isDirectory names = true → other.isDirectory names = true)
    (h : tree.reached? path = some names) : other.reached? path = some names := by
  obtain ⟨hempty, hhead, h⟩ := reached?_eq_some_iff.1 h
  refine reached?_eq_some_iff.2 ⟨hempty, hhead, ?_⟩
  generalize (Text.splitOn '/' path.toList).map String.ofList = parts at h ⊢
  generalize [] = steps at h ⊢
  induction parts generalizing steps with
  | nil => exact h
  | cons part parts ih =>
    rw [reachedAfter_cons] at h ⊢
    split at h
    · cases h
    · next hdirectory =>
      rw [Bool.not_eq_true', Bool.not_eq_false] at hdirectory
      rw [hmore _ hdirectory, Bool.not_true, if_neg Bool.false_ne_true]
      split at h
      · next hstays =>
        rw [if_pos hstays]
        exact ih steps h
      · next hmoves =>
        rw [if_neg hmoves]
        split at h
        · next hback =>
          rw [if_pos hback]
          obtain ⟨steps', hsteps, h⟩ := Option.bind_eq_some_iff.1 h
          rw [hsteps]
          exact ih steps' h
        · next hforth =>
          rw [if_neg hforth]
          exact ih _ h

end FileTree

end MustacheJsx

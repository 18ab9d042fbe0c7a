import Mathlib.Data.List.Infix
import Mathlib.Data.List.Pairwise
import MustacheJsx.Proofs.CommandLine.Place

/-!
# Where output goes

The output of a template stands in the same directory under the name of the template with another
extension. A tree takes a file unless another file or a directory is in its way, so the places of
its files stay apart (`FileTree.Extends.store`).
-/

namespace MustacheJsx

namespace Location

/-! ### Extensions -/

theorem splitExtension_cases (name : String) :
    splitExtension name = (name, none) ∨ ∃ stem extension, stem ≠ "" ∧
      name = stem ++ "." ++ extension ∧ splitExtension name = (stem, some extension) := by
  rw [splitExtension]
  split
  · next stem hdrop =>
    split
    · exact .inl rfl
    · next hne =>
      refine .inr ⟨_, _, ?_, ?_, rfl⟩
      · intro hempty
        have hnil := congrArg String.toList hempty
        rw [String.toList_ofList] at hnil
        exact hne (List.isEmpty_iff.2 (List.reverse_eq_nil_iff.1 hnil))
      · have hsplit := List.takeWhile_append_dropWhile (p := (· != '.')) (l := name.toList.reverse)
        rw [hdrop] at hsplit
        generalize name.toList.reverse.takeWhile (· != '.') = extension at hsplit
        have hname := congrArg List.reverse hsplit.symm
        rw [List.reverse_reverse] at hname
        apply String.toList_inj.1
        rw [hname]
        simp
  · exact .inl rfl

def stem (name : String) : String := (splitExtension name).1

theorem withExtension_eq (name extension : String) :
    withExtension name extension = stem name ++ "." ++ extension := rfl

theorem stem_isPrefix (name : String) : (stem name).toList <+: name.toList := by
  rw [stem]
  rcases splitExtension_cases name with hname | ⟨stem, extension, -, heq, hname⟩
  · rw [hname]
  · rw [hname, heq, String.append_assoc, String.toList_append]
    exact List.prefix_append _ _

theorem isName_withExtension {name : String} (h : IsName name) :
    IsName (withExtension name "jsx") := by
  have htoList :
      (withExtension name "jsx").toList = (stem name).toList ++ ['.', 'j', 's', 'x'] := by
    rw [withExtension_eq, String.append_assoc, String.toList_append]
    rfl
  have hlast : (withExtension name "jsx").toList.getLast? = some 'x' := by
    rw [htoList]
    simp
  refine ⟨?_, ?_, ?_, ?_⟩
  · intro heq
    rw [heq] at hlast
    cases hlast
  · rw [htoList]
    intro hmem
    rcases List.mem_append.1 hmem with hmem | hmem
    · exact h.slash ((stem_isPrefix name).subset hmem)
    · exact absurd hmem (by decide)
  · intro heq
    rw [heq] at hlast
    exact absurd hlast (by decide)
  · intro heq
    rw [heq] at hlast
    exact absurd hlast (by decide)

/-! ### Outputs -/

theorem outputParts_concat (front : List String) (last : String) :
    outputParts (front ++ [last]) = front ++ [withExtension last "jsx"] := by
  simp [outputParts]

theorem outputParts_names {parts : List String} (hne : parts ≠ [])
    (hnames : ∀ name ∈ parts, IsName name) :
    outputParts parts ≠ [] ∧ ∀ name ∈ outputParts parts, IsName name := by
  obtain ⟨front, last, rfl⟩ := (List.eq_nil_or_concat' parts).resolve_left hne
  rw [outputParts_concat]
  refine ⟨by simp, List.forall_mem_append.2 ⟨fun name hname => ?_, ?_⟩⟩
  · exact hnames name (List.mem_append_left _ hname)
  · exact List.forall_mem_singleton.2 (isName_withExtension (hnames last (by simp)))

/-- Neither place is the other one or lies on the way to it. -/
def Apart (names others : List String) : Prop := ¬ names <+: others ∧ ¬ others <+: names

instance (names others : List String) : Decidable (Apart names others) :=
  inferInstanceAs (Decidable (_ ∧ _))

variable {names others rest : List String}

theorem Apart.symm (h : Apart names others) : Apart others names := ⟨h.2, h.1⟩

theorem Apart.ne (h : Apart names others) : names ≠ others := by
  rintro rfl
  exact h.1 (List.prefix_refl names)

theorem Apart.append (h : Apart names others) (rest : List String) :
    Apart names (others ++ rest) := by
  refine ⟨fun hprefix => ?_, fun hprefix => h.2 ((List.prefix_append _ _).trans hprefix)⟩
  rcases List.prefix_or_prefix_of_prefix hprefix (List.prefix_append others rest) with h' | h'
  · exact h.1 h'
  · exact h.2 h'

theorem apart_append_iff : Apart (rest ++ names) (rest ++ others) ↔ Apart names others := by
  rw [Apart, Apart, List.prefix_append_right_inj, List.prefix_append_right_inj]

end Location

namespace FileTree

open Location

/-! ### Trees as disks hold them -/

/-- Files that a disk can hold: with names, and none in the way of another. -/
structure IsProper (tree : FileTree) : Prop where
  named : ∀ file ∈ tree.files, file.1 ≠ [] ∧ ∀ name ∈ file.1, IsName name
  apart : tree.files.Pairwise fun file other => Apart file.1 other.1

variable {tree after : FileTree} {names out : List String} {text : String}

theorem eq_or_apart (h : tree.files.Pairwise fun file other => Apart file.1 other.1)
    {file other : List String × String} (hfile : file ∈ tree.files) (hother : other ∈ tree.files) :
    file = other ∨ Apart file.1 other.1 := by
  have hsymm : Std.Symm fun file other : List String × String => Apart file.1 other.1 :=
    ⟨fun _ _ hapart => hapart.symm⟩
  by_cases heq : file = other
  · exact .inl heq
  · exact .inr (h.forall hfile hother heq)

theorem text?_eq_some_iff (h : tree.files.Pairwise fun file other => Apart file.1 other.1) :
    tree.text? names = some text ↔ (names, text) ∈ tree.files := by
  rw [text?, Option.map_eq_some_iff]
  constructor
  · rintro ⟨⟨file, text'⟩, hfound, rfl⟩
    have hsame := List.find?_some hfound
    rw [← beq_iff_eq.1 hsame]
    exact List.mem_of_find?_eq_some hfound
  · intro hmem
    cases hfound : tree.files.find? fun file => file.1 == names with
    | none =>
      have hnot := List.find?_eq_none.1 hfound _ hmem
      simp at hnot
    | some found =>
      have hsame := List.find?_some hfound
      rcases eq_or_apart h (List.mem_of_find?_eq_some hfound) hmem with heq | hapart
      · exact ⟨found, rfl, congrArg Prod.snd heq⟩
      · exact absurd (beq_iff_eq.1 hsame) hapart.ne

/-! ### Writing -/

def refuses (tree : FileTree) (names : List String) : Bool :=
  tree.isDirectory names || tree.blocked names.dropLast

theorem refuses_eq_false_iff (hne : names ≠ []) :
    tree.refuses names = false ↔
      ∀ file ∈ tree.files, file.1 = names ∨ Apart file.1 names := by
  obtain ⟨front, last, rfl⟩ := (List.eq_nil_or_concat' names).resolve_left hne
  rw [refuses, Bool.or_eq_false_iff, isDirectory, blocked, Bool.or_eq_false_iff,
    List.dropLast_concat, List.any_eq_false, List.any_eq_false]
  constructor
  · rintro ⟨⟨-, hdirectory⟩, hblocked⟩ ⟨file, text⟩ hfile
    have hbelow := hdirectory _ hfile
    have habove := hblocked _ hfile
    dsimp only at hbelow habove ⊢
    rw [List.isPrefixOf_iff_prefix] at habove
    by_cases heq : file = front ++ [last]
    · exact .inl heq
    · refine .inr ⟨fun hprefix => ?_, fun hprefix => hbelow ?_⟩
      · rcases List.prefix_concat_iff.1 hprefix with hsame | hfront
        · exact heq hsame
        · exact habove hfront
      · rw [Bool.and_eq_true, List.isPrefixOf_iff_prefix]
        exact ⟨bne_iff_ne.2 heq, hprefix⟩
  · intro h
    refine ⟨⟨by simp, fun ⟨file, text⟩ hfile hbelow => ?_⟩, fun ⟨file, text⟩ hfile habove => ?_⟩
    · rw [Bool.and_eq_true, List.isPrefixOf_iff_prefix] at hbelow
      rcases h _ hfile with hsame | hapart
      · exact bne_iff_ne.1 hbelow.1 hsame
      · exact hapart.2 hbelow.2
    · rw [List.isPrefixOf_iff_prefix] at habove
      rcases h _ hfile with hsame | hapart
      · dsimp only at hsame
        rw [hsame] at habove
        have hlength := habove.length_le
        rw [List.length_append, List.length_singleton] at hlength
        omega
      · exact hapart.1 (habove.trans (List.prefix_append _ _))

theorem makePath_eq {path : String} (h : place? path = some names) :
    makePath path tree = if tree.blocked names then .error refusal else .ok () := by
  rw [makePath, h]

theorem writePath_eq {path : String} (h : place? path = some names) :
    writePath path text tree =
      if tree.refuses names then (.error refusal, tree) else (.ok (), tree.store names text) := by
  rw [writePath, h]
  rfl

/-- A tree to which a run has added files below a place that was free. -/
structure Extends (tree : FileTree) (out : List String) (after : FileTree) : Prop where
  files : ∃ added, after.files = added ++ tree.files ∧ ∀ file ∈ added, out <+: file.1
  apart : after.files.Pairwise fun file other => Apart file.1 other.1

namespace Extends

theorem refl (h : tree.IsProper) (out : List String) : tree.Extends out tree :=
  ⟨⟨[], rfl, nofun⟩, h.apart⟩

theorem mem (h : tree.Extends out after) {file : List String × String} (hfile : file ∈ tree.files) :
    file ∈ after.files := by
  obtain ⟨added, hadded, -⟩ := h.files
  rw [hadded]
  exact List.mem_append_right _ hfile

theorem store (h : tree.Extends out after) (hfree : ∀ file ∈ tree.files, Apart file.1 out)
    (hbelow : out <+: names) (hrefuses : after.refuses names = false) (hne : names ≠ [])
    (text : String) : tree.Extends out (after.store names text) := by
  have hclear := (refuses_eq_false_iff hne).1 hrefuses
  obtain ⟨added, hadded, hplaces⟩ := h.files
  have hfiles : (after.store names text).files =
      (names, text) :: after.files.filter fun file => file.1 != names := rfl
  have hkept : (tree.files.filter fun file => file.1 != names) = tree.files := by
    refine List.filter_eq_self.2 fun file hfile => bne_iff_ne.2 ?_
    rintro rfl
    exact (hfree _ hfile).2 hbelow
  constructor
  · refine ⟨(names, text) :: added.filter fun file => file.1 != names, ?_, ?_⟩
    · rw [hfiles, hadded, List.filter_append, hkept, List.cons_append]
    · refine List.forall_mem_cons.2 ⟨hbelow, fun file hfile => ?_⟩
      exact hplaces file (List.mem_of_mem_filter hfile)
  · rw [hfiles]
    refine List.pairwise_cons.2 ⟨fun file hfile => ?_, h.apart.filter _⟩
    obtain ⟨hmem, hother⟩ := List.mem_filter.1 hfile
    exact ((hclear _ hmem).resolve_left (bne_iff_ne.1 hother)).symm

theorem isDirectory (h : tree.Extends out after) (hnames : tree.isDirectory names = true) :
    after.isDirectory names = true := by
  obtain ⟨added, hadded, -⟩ := h.files
  rw [FileTree.isDirectory, Bool.or_eq_true_iff] at hnames ⊢
  refine hnames.imp_right fun hany => ?_
  rw [hadded, List.any_append, hany, Bool.or_true]

theorem readPath (h : tree.Extends out after) {root : String} {top inside : List String}
    (hroot : tree.reached? root = some top) (hne : inside ≠ [])
    (hinside : ∀ name ∈ inside, IsName name) (hfile : (top ++ inside, text) ∈ tree.files) :
    FileTree.readPath (join root (ofParts inside)) after = .ok text := by
  have hany : after.isFile (top ++ inside) = true :=
    List.any_eq_true.2 ⟨_, h.mem hfile, beq_self_eq_true _⟩
  have hreached := reached?_join (reached?_mono (fun _ => h.isDirectory) hroot) hne hinside hany
  rw [FileTree.readPath, hreached, Option.bind_some, (text?_eq_some_iff h.apart).2 (h.mem hfile)]

end Extends

end FileTree

end MustacheJsx

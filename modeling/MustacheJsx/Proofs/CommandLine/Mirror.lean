import MustacheJsx.Proofs.CommandLine.Output

/-!
# Compiling a directory

A run over a directory compiles the templates below it one by one, in the order in which it meets
them. Whatever the order, every template that compiles has its code at its own place and nothing
else changes, if and only if no output of a template that compiles is in the way of another one:
`FileTree.mirrors_iff`.
-/

namespace MustacheJsx

/-- What every step keeps of the results so far and of the state, a run of steps keeps. -/
theorem mapM_run_induction {α β σ : Type} {f : α → StateM σ β}
    {motive : List α → List β → σ → Prop} {xs : List α}
    (hstep : ∀ x ∈ xs, ∀ done results s, motive done results s →
      motive (done ++ [x]) (results ++ [((f x).run s).1]) ((f x).run s).2)
    {s : σ} (hstart : motive [] [] s) :
    motive xs ((xs.mapM f).run s).1 ((xs.mapM f).run s).2 := by
  have hall : ∀ done results s, motive done results s →
      motive (done ++ xs) (results ++ ((xs.mapM f).run s).1) ((xs.mapM f).run s).2 := by
    induction xs with
    | nil =>
      intro done results s h
      have hnone : (([] : List α).mapM f).run s = ([], s) := rfl
      rw [hnone, List.append_nil, List.append_nil]
      exact h
    | cons x xs ih =>
      intro done results s h
      have hrun : ((x :: xs).mapM f).run s =
          (((f x).run s).1 :: ((xs.mapM f).run ((f x).run s).2).1,
            ((xs.mapM f).run ((f x).run s).2).2) := by
        rw [List.mapM_cons]
        rfl
      have hmore := ih (fun y hy => hstep y (List.mem_cons_of_mem x hy)) _ _ _
        (hstep x List.mem_cons_self done results s h)
      rw [List.append_assoc, List.append_assoc] at hmore
      rw [hrun]
      exact hmore
  exact hall [] [] s hstart

namespace FileTree

open Location

/-! ### Templates below a directory -/

def templates (tree : FileTree) (top : List String) : List (List String × String) :=
  ((tree.files.filter fun (file, _) => top.isPrefixOf file).map fun (file, text) =>
    (file.drop top.length, text)).filter fun (inside, _) => inside.getLast?.any isTemplate

/-- What becomes of a template: its text is compiled without the blanks at its end. -/
def compiled (options : Options) (template : List String × String) :
    Except CompileError (List Char) :=
  compile (Text.trimEnd template.2.toList) options

/-- A tree as a disk that meets the files below a directory in any order. -/
def diskInOrder
    (order : List (Except Failure (List String)) → List (Except Failure (List String))) :
    Disk (StateM FileTree) :=
  { disk with walk := fun path => return order (walkPath path (← get)) }

/-- Input and output of a run over a directory: there is nothing where the output goes. -/
structure IsReady (tree : FileTree) (root outDir : String) (top out : List String) : Prop where
  proper : tree.IsProper
  reached : tree.reached? root = some top
  directory : tree.isDirectory top = true
  place : place? outDir = some out
  free : ∀ file ∈ tree.files, Apart file.1 out

/-- Every template that compiles has its own place for its code, nothing else changes, and the
status tells whether a template has failed. -/
structure Mirrors (tree : FileTree) (options : Options) (top out : List String) (status : Nat)
    (after : FileTree) : Prop where
  distinct : ∀ template ∈ tree.templates top, ∀ other ∈ tree.templates top,
    template.1 ≠ other.1 →
    ∀ code, compiled options template = .ok code →
    ∀ code', compiled options other = .ok code' →
      out ++ outputParts template.1 ≠ out ++ outputParts other.1
  written : ∀ template ∈ tree.templates top,
    ∀ code, compiled options template = .ok code →
      after.text? (out ++ outputParts template.1) = some (String.ofList code ++ "\n")
  kept : ∀ names text, tree.text? names = some text → after.text? names = some text
  nothingElse : ∀ names text, after.text? names = some text → tree.text? names = some text ∨
    ∃ template ∈ tree.templates top,
      ∃ code, compiled options template = .ok code ∧
        names = out ++ outputParts template.1 ∧ text = String.ofList code ++ "\n"
  status : status = 1 ↔ ∃ template ∈ tree.templates top,
    ∃ error, compiled options template = .error error

variable {tree after : FileTree} {root outDir : String} {top out : List String} {options : Options}
  {template other : List String × String}

theorem mem_templates : template ∈ tree.templates top ↔
    (top ++ template.1, template.2) ∈ tree.files ∧ template.1.getLast?.any isTemplate = true := by
  rw [templates, List.mem_filter, List.mem_map]
  constructor
  · rintro ⟨⟨⟨file, text⟩, hfile, rfl⟩, htemplate⟩
    obtain ⟨hmem, hbelow⟩ := List.mem_filter.1 hfile
    obtain ⟨inside, rfl⟩ := List.isPrefixOf_iff_prefix.1 hbelow
    dsimp only at htemplate ⊢
    rw [List.drop_left] at htemplate ⊢
    exact ⟨hmem, htemplate⟩
  · rintro ⟨hmem, htemplate⟩
    refine ⟨⟨_, List.mem_filter.2 ⟨hmem, ?_⟩, ?_⟩, htemplate⟩
    · exact List.isPrefixOf_iff_prefix.2 (List.prefix_append _ _)
    · dsimp only
      rw [List.drop_left]

theorem exists_of_mem_walkPath (hroot : tree.reached? root = some top)
    {found : Except Failure (List String)} (h : found ∈ walkPath root tree) :
    ∃ inside text, found = .ok inside ∧ (top ++ inside, text) ∈ tree.files := by
  rw [walkPath, hroot] at h
  obtain ⟨⟨file, text⟩, hfile, rfl⟩ := List.mem_map.1 h
  obtain ⟨hmem, hbelow⟩ := List.mem_filter.1 hfile
  obtain ⟨inside, rfl⟩ := List.isPrefixOf_iff_prefix.1 hbelow
  refine ⟨inside, text, ?_, hmem⟩
  dsimp only
  rw [List.drop_left]

theorem mem_walkPath (hroot : tree.reached? root = some top) (h : template ∈ tree.templates top) :
    .ok template.1 ∈ walkPath root tree := by
  rw [walkPath, hroot]
  refine List.mem_map.2 ⟨_, List.mem_filter.2 ⟨(mem_templates.1 h).1, ?_⟩, ?_⟩
  · exact List.isPrefixOf_iff_prefix.2 (List.prefix_append _ _)
  · dsimp only
    rw [List.drop_left]

namespace IsReady

variable (h : tree.IsReady root outDir top out)

include h

theorem eq_of_names (ht : template ∈ tree.templates top) (ho : other ∈ tree.templates top)
    (hnames : template.1 = other.1) : template = other := by
  rcases eq_or_apart h.proper.apart (mem_templates.1 ht).1 (mem_templates.1 ho).1 with heq | hapart
  · exact Prod.ext hnames (Prod.mk.inj heq).2
  · refine absurd ?_ hapart.ne
    dsimp only
    rw [hnames]

theorem names (ht : template ∈ tree.templates top) :
    template.1 ≠ [] ∧ ∀ name ∈ template.1, IsName name := by
  obtain ⟨hmem, htemplate⟩ := mem_templates.1 ht
  refine ⟨?_, fun name hname => ?_⟩
  · intro hnil
    rw [hnil] at htemplate
    cases htemplate
  · exact (h.proper.named _ hmem).2 name (List.mem_append_right _ hname)

end IsReady

/-! ### One template -/

/-- What one template does to a tree, and what is told about it. -/
inductive Step (options : Options) (out : List String) (template : List String × String)
    (after : FileTree) : Option Failure → FileTree → Prop
  | fails {error : CompileError}
      (h : compiled options template = .error error) (failure : Failure) :
      Step options out template after (some failure) after
  | refused {code : List Char}
      (h : compiled options template = .ok code)
      (hway : after.refuses (out ++ outputParts template.1) = true) (failure : Failure) :
      Step options out template after (some failure) after
  | written {code : List Char}
      (h : compiled options template = .ok code)
      (hway : after.refuses (out ++ outputParts template.1) = false) :
      Step options out template after none
        (after.store (out ++ outputParts template.1) (String.ofList code ++ "\n"))

theorem run_compileFile {path text : String} (h : readPath path after = .ok text) :
    (disk.compileFile options path).run after = (codeOf options path text, after) := by
  have hread : (disk.read path).run after = (readPath path after, after) := rfl
  rw [Disk.compileFile, StateT.run_bind, hread, h]
  rfl

theorem run_writeInside {target code : String} {front : List String} {last : String}
    (hparent : place? (parent target) = some front)
    (htarget : place? target = some (front ++ [last])) :
    (disk.writeInside target code).run after =
      if after.blocked front then (some (.disk (parent target) refusal), after)
      else if after.refuses (front ++ [last]) then (some (.disk target refusal), after)
      else (none, after.store (front ++ [last]) code) := by
  have hmake : (disk.makeDirectories (parent target)).run after =
      (makePath (parent target) after, after) := rfl
  have hwrite : (disk.write target code).run after = writePath target code after := rfl
  rw [Disk.writeInside, StateT.run_bind, hmake, makePath_eq hparent]
  split
  · rfl
  · show StateT.run (disk.write target code >>= _) after = _
    rw [StateT.run_bind, hwrite, writePath_eq htarget]
    split <;> rfl

theorem step_template (h : tree.IsReady root outDir top out) (hafter : tree.Extends out after)
    (ht : template ∈ tree.templates top) :
    Step options out template after
      ((disk.compileFound options root outDir (.ok template.1)).run after).1
      ((disk.compileFound options root outDir (.ok template.1)).run after).2 := by
  obtain ⟨hmem, htemplate⟩ := mem_templates.1 ht
  obtain ⟨hne, hnames⟩ := h.names ht
  have hread : (disk.compileFile options _).run after = _ :=
    run_compileFile (hafter.readPath h.reached hne hnames hmem)
  obtain ⟨-, houtput⟩ := outputParts_names hne hnames
  have hinside : disk.compileFound options root outDir (.ok template.1) =
      disk.compileInside options root outDir template.1 := if_pos htemplate
  obtain ⟨front, last, hparts⟩ := (List.eq_nil_or_concat' template.1).resolve_left hne
  have htarget := place?_join h.place houtput
  rw [hinside, Disk.compileInside, StateT.run_bind, hread, codeOf]
  cases hcompile : compiled options template with
  | error error =>
    rw [compiled] at hcompile
    rw [hcompile]
    exact .fails hcompile _
  | ok code =>
    rw [compiled] at hcompile
    rw [hcompile]
    show Step options out template after
      ((disk.writeInside (join outDir (ofParts (outputParts template.1)))
        (String.ofList code ++ "\n")).run after).1
      ((disk.writeInside (join outDir (ofParts (outputParts template.1)))
        (String.ofList code ++ "\n")).run after).2
    have hconcat : out ++ outputParts template.1 = out ++ front ++ [withExtension last "jsx"] := by
      rw [hparts, outputParts_concat, List.append_assoc]
    have hparent : place? (parent (join outDir (ofParts (outputParts template.1)))) =
        some (out ++ front) := by
      rw [hparts, outputParts_concat] at houtput ⊢
      exact place?_parent h.place houtput
    rw [hconcat] at htarget
    rw [run_writeInside hparent htarget]
    split
    · next hblocked =>
      refine .refused hcompile ?_ _
      rw [hconcat, refuses, List.dropLast_concat, hblocked, Bool.or_true]
    · split
      · next hway => exact .refused hcompile (hconcat ▸ hway) _
      · next hway =>
        rw [← hconcat] at hway ⊢
        exact .written hcompile (Bool.not_eq_true _ ▸ hway)

theorem run_compileFound_other {inside : List String}
    (h : ¬ inside.getLast?.any isTemplate = true) :
    (disk.compileFound options root outDir (.ok inside)).run after = (none, after) := by
  have hnone : disk.compileFound options root outDir (.ok inside) = pure none := if_neg h
  rw [hnone]
  rfl

/-! ### All templates -/

/-- A tree in the middle of a run: it holds only outputs of templates besides what it held. -/
structure Progress (tree : FileTree) (options : Options) (top out : List String)
    (after : FileTree) : Prop where
  extension : tree.Extends out after
  origin : ∀ file ∈ after.files, file ∈ tree.files ∨ ∃ template ∈ tree.templates top,
    ∃ code, compiled options template = .ok code ∧
      file = (out ++ outputParts template.1, String.ofList code ++ "\n")

theorem Progress.step (h : tree.IsReady root outDir top out)
    (hprogress : tree.Progress options top out after) (ht : template ∈ tree.templates top)
    {result : Option Failure} {after' : FileTree}
    (hstep : Step options out template after result after') :
    tree.Progress options top out after' := by
  cases hstep with
  | fails => exact hprogress
  | refused => exact hprogress
  | @written code hcompile hway =>
    obtain ⟨hne, hnames⟩ := h.names ht
    have hnonempty : out ++ outputParts template.1 ≠ [] :=
      List.append_ne_nil_of_right_ne_nil _ (outputParts_names hne hnames).1
    refine ⟨hprogress.extension.store h.free (List.prefix_append _ _) hway hnonempty _,
      fun file hfile => ?_⟩
    rcases List.mem_cons.1 hfile with rfl | hfile
    · exact .inr ⟨template, ht, code, hcompile, rfl⟩
    · exact hprogress.origin file (List.mem_of_mem_filter hfile)

/-- Templates that compile have outputs that are not in the way of each other. -/
def OutputsApart (tree : FileTree) (options : Options) (top : List String) : Prop :=
  ∀ template ∈ tree.templates top, ∀ other ∈ tree.templates top, template.1 ≠ other.1 →
    ∀ code, compiled options template = .ok code →
    ∀ code', compiled options other = .ok code' →
      Apart (outputParts template.1) (outputParts other.1)

/-- Then nothing is in the way of an output. -/
theorem Progress.refuses_eq_false (h : tree.IsReady root outDir top out)
    (hapart : tree.OutputsApart options top) (hprogress : tree.Progress options top out after)
    (ht : template ∈ tree.templates top) {code : List Char}
    (hcompile : compiled options template = .ok code) :
    after.refuses (out ++ outputParts template.1) = false := by
  obtain ⟨hne, hnames⟩ := h.names ht
  have hnonempty : out ++ outputParts template.1 ≠ [] :=
    List.append_ne_nil_of_right_ne_nil _ (outputParts_names hne hnames).1
  refine (refuses_eq_false_iff hnonempty).2 fun file hfile => ?_
  rcases hprogress.origin file hfile with hfile | ⟨other, ho, code', hcompile', rfl⟩
  · exact .inr ((h.free file hfile).append _)
  · by_cases hsame : template.1 = other.1
    · exact .inl (by rw [hsame])
    · refine .inr (apart_append_iff.2 ?_)
      exact (hapart template ht other ho hsame code hcompile code' hcompile').symm

/-- What has come of the templates that have been met, if no output is in the way of another. -/
structure Settled (tree : FileTree) (options : Options) (top out : List String)
    (done : List (Except Failure (List String))) (results : List (Option Failure))
    (after : FileTree) : Prop where
  written : ∀ template ∈ tree.templates top, .ok template.1 ∈ done →
    ∀ code, compiled options template = .ok code →
      (out ++ outputParts template.1, String.ofList code ++ "\n") ∈ after.files
  failures : (∃ result ∈ results, result.isSome = true) ↔
    ∃ template ∈ tree.templates top, .ok template.1 ∈ done ∧
      ∃ error, compiled options template = .error error

theorem Settled.start (tree : FileTree) (options : Options) (top out : List String) :
    tree.Settled options top out [] [] tree := by
  constructor
  · intro template ht hmem
    cases hmem
  · constructor
    · rintro ⟨result, hmem, -⟩
      cases hmem
    · rintro ⟨template, -, hmem, -⟩
      cases hmem

theorem Settled.pass {done : List (Except Failure (List String))}
    {results : List (Option Failure)} (h : tree.Settled options top out done results after)
    {inside : List String} (hinside : ∀ template ∈ tree.templates top, template.1 ≠ inside) :
    tree.Settled options top out (done ++ [.ok inside]) (results ++ [none]) after := by
  have hmet : ∀ template ∈ tree.templates top,
      Except.ok template.1 ∈ done ++ [Except.ok inside] → Except.ok template.1 ∈ done := by
    intro template ht hmem
    rcases List.mem_append.1 hmem with hmem | hmem
    · exact hmem
    · cases List.mem_singleton.1 hmem
      exact absurd rfl (hinside template ht)
  constructor
  · intro template ht hmem
    exact h.written template ht (hmet template ht hmem)
  · constructor
    · rintro ⟨result, hresult, hsome⟩
      rcases List.mem_append.1 hresult with hresult | hresult
      · obtain ⟨template, ht, hmem, hfails⟩ := h.failures.1 ⟨result, hresult, hsome⟩
        exact ⟨template, ht, List.mem_append_left _ hmem, hfails⟩
      · cases List.mem_singleton.1 hresult
        cases hsome
    · rintro ⟨template, ht, hmem, hfails⟩
      obtain ⟨result, hresult, hsome⟩ := h.failures.2 ⟨template, ht, hmet template ht hmem, hfails⟩
      exact ⟨result, List.mem_append_left _ hresult, hsome⟩

theorem Settled.step (hready : tree.IsReady root outDir top out)
    (hapart : tree.OutputsApart options top) (hprogress : tree.Progress options top out after)
    {done : List (Except Failure (List String))} {results : List (Option Failure)}
    (h : tree.Settled options top out done results after) (ht : template ∈ tree.templates top)
    {result : Option Failure} {after' : FileTree}
    (hstep : Step options out template after result after') :
    tree.Settled options top out (done ++ [.ok template.1]) (results ++ [result]) after' := by
  have hmet : ∀ other ∈ tree.templates top,
      Except.ok other.1 ∈ done ++ [Except.ok template.1] →
        Except.ok other.1 ∈ done ∨ other = template := by
    intro other ho hmem
    rcases List.mem_append.1 hmem with hmem | hmem
    · exact .inl hmem
    · exact .inr (hready.eq_of_names ho ht (Except.ok.inj (List.mem_singleton.1 hmem)))
  cases hstep with
  | @fails error hcompile failure =>
    constructor
    · intro other ho hmem code hcode
      rcases hmet other ho hmem with hmem | rfl
      · exact h.written other ho hmem code hcode
      · rw [hcompile] at hcode
        cases hcode
    · constructor
      · exact fun _ => ⟨template, ht, by simp, error, hcompile⟩
      · exact fun _ => ⟨some failure, by simp, rfl⟩
  | refused hcompile hway failure =>
    rw [hprogress.refuses_eq_false hready hapart ht hcompile] at hway
    cases hway
  | @written code hcompile hway =>
    constructor
    · intro other ho hmem code' hcode
      rcases hmet other ho hmem with hmem | rfl
      · by_cases hsame : other.1 = template.1
        · cases hready.eq_of_names ho ht hsame
          rw [hcompile] at hcode
          cases hcode
          exact List.mem_cons_self
        · refine List.mem_cons_of_mem _ (List.mem_filter.2 ⟨h.written other ho hmem _ hcode, ?_⟩)
          have hother := hapart other ho template ht hsame _ hcode _ hcompile
          exact bne_iff_ne.2 (apart_append_iff.2 hother).ne
      · rw [hcompile] at hcode
        cases hcode
        exact List.mem_cons_self
    · constructor
      · rintro ⟨result, hresult, hsome⟩
        rcases List.mem_append.1 hresult with hresult | hresult
        · obtain ⟨other, ho, hmem, hfails⟩ := h.failures.1 ⟨result, hresult, hsome⟩
          exact ⟨other, ho, List.mem_append_left _ hmem, hfails⟩
        · cases List.mem_singleton.1 hresult
          cases hsome
      · rintro ⟨other, ho, hmem, error, hfails⟩
        rcases hmet other ho hmem with hmem | rfl
        · obtain ⟨result, hresult, hsome⟩ := h.failures.2 ⟨other, ho, hmem, error, hfails⟩
          exact ⟨result, List.mem_append_left _ hresult, hsome⟩
        · rw [hcompile] at hfails
          cases hfails

/-! ### Whole runs -/

variable {order : List (Except Failure (List String)) → List (Except Failure (List String))}
  {arguments : Arguments}

theorem run_diskInOrder (h : tree.IsReady root outDir top out)
    (hinput : arguments.input = some root) (houtDir : arguments.outDir = some outDir) :
    ((diskInOrder order).run arguments).run tree =
      let steps := (order (walkPath root tree)).mapM
        (disk.compileFound arguments.options root outDir)
      ({ failures := (steps.run tree).1.filterMap id }, (steps.run tree).2) := by
  have hdirectory : ((diskInOrder order).isDirectory root).run tree = (true, tree) := by
    have hholds : holdsDirectory root tree = true := by
      rw [holdsDirectory, h.reached]
      exact h.directory
    rw [← hholds]
    rfl
  rw [Disk.run, hinput]
  dsimp only
  rw [StateT.run_bind, hdirectory, houtDir]
  rfl

theorem status_eq_one_iff (results : List (Option Failure)) :
    Outcome.status { failures := results.filterMap id } = 1 ↔
      ∃ result ∈ results, result.isSome = true := by
  rw [Outcome.status]
  split
  · next hempty =>
    refine ⟨nofun, fun ⟨result, hresult, hsome⟩ => ?_⟩
    obtain ⟨failure, rfl⟩ := Option.isSome_iff_exists.1 hsome
    have hmem : failure ∈ results.filterMap id := List.mem_filterMap.2 ⟨_, hresult, rfl⟩
    have hnil : results.filterMap id = [] := List.isEmpty_iff.1 hempty
    rw [hnil] at hmem
    cases hmem
  · next hsome =>
    refine ⟨fun _ => ?_, fun _ => rfl⟩
    obtain ⟨failure, hfailure⟩ := List.exists_mem_of_ne_nil _ (mt List.isEmpty_iff.2 hsome)
    obtain ⟨result, hresult, heq⟩ := List.mem_filterMap.1 hfailure
    exact ⟨result, hresult, Option.isSome_iff_exists.2 ⟨failure, heq⟩⟩

theorem exists_of_mem_order (h : tree.IsReady root outDir top out)
    (horder : ∀ found, (order found).Perm found) {found : Except Failure (List String)}
    (hfound : found ∈ order (walkPath root tree)) :
    (∃ template ∈ tree.templates top, found = .ok template.1) ∨
      ∃ inside, found = .ok inside ∧ ¬ inside.getLast?.any isTemplate = true := by
  obtain ⟨inside, text, rfl, hmem⟩ :=
    exists_of_mem_walkPath h.reached ((horder _).mem_iff.1 hfound)
  by_cases htemplate : inside.getLast?.any isTemplate = true
  · exact .inl ⟨(inside, text), mem_templates.2 ⟨hmem, htemplate⟩, rfl⟩
  · exact .inr ⟨inside, rfl, htemplate⟩

theorem progress_of_run (h : tree.IsReady root outDir top out)
    (horder : ∀ found, (order found).Perm found) :
    tree.Progress options top out (((order (walkPath root tree)).mapM
      (disk.compileFound options root outDir)).run tree).2 := by
  have hstart : tree.Progress options top out tree := ⟨.refl h.proper out, fun _ => .inl⟩
  refine mapM_run_induction (motive := fun _ _ after => tree.Progress options top out after)
    (fun found hfound done results after hafter => ?_) hstart
  rcases exists_of_mem_order h horder hfound with ⟨template, ht, rfl⟩ | ⟨inside, rfl, hother⟩
  · exact hafter.step h ht (step_template h hafter.extension ht)
  · rw [run_compileFound_other hother]
    exact hafter

theorem settled_of_run (h : tree.IsReady root outDir top out)
    (horder : ∀ found, (order found).Perm found) (hapart : tree.OutputsApart options top) :
    let steps := (order (walkPath root tree)).mapM (disk.compileFound options root outDir)
    tree.Settled options top out (order (walkPath root tree)) (steps.run tree).1
      (steps.run tree).2 := by
  intro steps
  refine (mapM_run_induction (motive := fun done results after =>
    tree.Progress options top out after ∧ tree.Settled options top out done results after)
    (fun found hfound done results after ⟨hprogress, hsettled⟩ => ?_)
    ⟨⟨.refl h.proper out, fun _ => .inl⟩, .start tree options top out⟩).2
  rcases exists_of_mem_order h horder hfound with ⟨template, ht, rfl⟩ | ⟨inside, rfl, hother⟩
  · have hstep : Step options out template after _ _ := step_template h hprogress.extension ht
    exact ⟨hprogress.step h ht hstep, hsettled.step h hapart hprogress ht hstep⟩
  · rw [run_compileFound_other hother]
    refine ⟨hprogress, hsettled.pass fun template ht hnames => ?_⟩
    exact hother (hnames ▸ (mem_templates.1 ht).2)

theorem Mirrors.outputsApart {status : Nat}
    (h : tree.Mirrors options top out status after)
    (hprogress : tree.Progress options top out after) : tree.OutputsApart options top := by
  intro template ht other ho hne code hcompile code' hcompile'
  have hwritten := h.written template ht code hcompile
  have hwritten' := h.written other ho code' hcompile'
  rw [text?_eq_some_iff hprogress.extension.apart] at hwritten hwritten'
  rcases eq_or_apart hprogress.extension.apart hwritten hwritten' with heq | hapart
  · exact absurd (Prod.mk.inj heq).1
      (h.distinct template ht other ho hne code hcompile code' hcompile')
  · exact apart_append_iff.1 hapart

/-- A tree in which all templates are settled mirrors them. -/
theorem Settled.mirrors (h : tree.IsReady root outDir top out)
    (hapart : tree.OutputsApart options top) (hprogress : tree.Progress options top out after)
    {done : List (Except Failure (List String))} {results : List (Option Failure)}
    (hsettled : tree.Settled options top out done results after)
    (hmet : ∀ template ∈ tree.templates top, Except.ok template.1 ∈ done) :
    tree.Mirrors options top out (Outcome.status { failures := results.filterMap id }) after := by
  refine ⟨fun template ht other ho hne code hcompile code' hcompile' => ?_,
    fun template ht code hcompile => ?_, fun names text hnames => ?_,
    fun names text hnames => ?_, ?_⟩
  · exact (apart_append_iff.2 (hapart template ht other ho hne code hcompile code' hcompile')).ne
  · rw [text?_eq_some_iff hprogress.extension.apart]
    exact hsettled.written template ht (hmet template ht) code hcompile
  · rw [text?_eq_some_iff h.proper.apart] at hnames
    exact (text?_eq_some_iff hprogress.extension.apart).2 (hprogress.extension.mem hnames)
  · rw [text?_eq_some_iff hprogress.extension.apart] at hnames
    rcases hprogress.origin _ hnames with hold | ⟨template, ht, code, hcompile, heq⟩
    · exact .inl ((text?_eq_some_iff h.proper.apart).2 hold)
    · exact .inr ⟨template, ht, code, hcompile, (Prod.mk.inj heq).1, (Prod.mk.inj heq).2⟩
  · rw [status_eq_one_iff, hsettled.failures]
    constructor
    · rintro ⟨template, ht, -, hfails⟩
      exact ⟨template, ht, hfails⟩
    · rintro ⟨template, ht, hfails⟩
      exact ⟨template, ht, hmet template ht, hfails⟩

/-- Whatever the order of the files, a run over a directory gives every template that compiles its
own place with its code, changes nothing else and fails exactly if a template does, if and only if
no output of a template that compiles is in the way of another one. -/
theorem mirrors_iff (h : tree.IsReady root outDir top out)
    (horder : ∀ found, (order found).Perm found) (hinput : arguments.input = some root)
    (houtDir : arguments.outDir = some outDir) :
    let result := ((diskInOrder order).run arguments).run tree
    tree.Mirrors arguments.options top out result.1.status result.2 ↔
      tree.OutputsApart arguments.options top := by
  intro result
  have hresult : result = _ := run_diskInOrder h hinput houtDir
  rw [hresult]
  dsimp only
  have hprogress : tree.Progress arguments.options top out _ := progress_of_run h horder
  constructor
  · exact fun hmirrors => hmirrors.outputsApart hprogress
  · intro hapart
    exact (settled_of_run h horder hapart).mirrors h hapart hprogress
      fun template ht => (horder _).mem_iff.2 (mem_walkPath h.reached ht)

/-- Templates of two directories, met in the order that the tree does not have. -/
theorem twoDirectories_mirrored :
    let tree : FileTree :=
      { files := [(["src", "a.hbs"], "x "), (["src", "b", "a.handlebars"], "\x7b\x7b"),
          (["src", "b.txt"], "z")] }
    let arguments : Arguments := { input := some "src", outDir := some "out" }
    let result := ((diskInOrder List.reverse).run arguments).run tree
    tree.IsReady "src" "out" ["src"] ["out"] ∧
      tree.Mirrors arguments.options ["src"] ["out"] result.1.status result.2 := by
  intro tree arguments result
  have hready : tree.IsReady "src" "out" ["src"] ["out"] := by
    refine ⟨⟨?_, ?_⟩, ?_, ?_, ?_, ?_⟩ <;> decide +kernel
  have hapart : ∀ template ∈ tree.templates ["src"], ∀ other ∈ tree.templates ["src"],
      template.1 ≠ other.1 → Apart (outputParts template.1) (outputParts other.1) := by
    decide +kernel
  have hinput : arguments.input = some "src" := rfl
  refine ⟨hready, (mirrors_iff hready List.reverse_perm hinput rfl).2 ?_⟩
  intro template ht other ho hne _ _ _ _
  exact hapart template ht other ho hne

/-- Of two templates that differ in their extension only one has its code left. -/
theorem sameStem_overwritten :
    let tree : FileTree :=
      { files := [(["src", "a.hbs"], "x"), (["src", "a.handlebars"], "y")] }
    let result := run { input := some "src", outDir := some "out" } tree
    tree.IsReady "src" "out" ["src"] ["out"] ∧ result.1.status = 0 ∧
      result.2.files = (["out", "a.jsx"], "(props) => \"y\";\n") :: tree.files := by
  intro tree result
  refine ⟨⟨⟨?_, ?_⟩, ?_, ?_, ?_, ?_⟩, ?_, ?_⟩ <;> decide +kernel

end FileTree

end MustacheJsx

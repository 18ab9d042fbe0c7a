import MustacheJsx.Proofs.Scope.Binder
import MustacheJsx.Proofs.Scope.Refinement
import MustacheJsx.Proofs.Template.Assembling

/-!
# Which variable an emitted path denotes

To see where conversion emits a path, a name that occurs nowhere else is recorded as its segments.
That name then stands exactly where the path is emitted, so the functions around it are those around
the path. There the first segment of the path denotes the variable that the template designates
exactly if no nearer loop has taken its name.
-/

namespace MustacheJsx

/-- A name that neither a template nor its conversion uses. -/
structure Template.Fresh (template : Template) (notes : Annotations) (mark : String) : Prop where
  parts : ∀ path ∈ template.paths, mark ∉ path.parts
  segments : ∀ path ∈ template.paths, mark ∉ notes.segments path
  own : mark ∉ Vocabulary.ownNames

namespace Template

variable {template : Template} {options : Options} {notes : Annotations}

theorem names_toRoot (options : Options) (root : Jsx.Term) :
    (options.toRoot root).names = root.names options.arrows := by
  rw [Options.toRoot, Options.arrows]
  cases options.isComponent <;> cases options.isModule <;> rfl

theorem segments_record_other {path other : Path} (h : other.id ≠ path.id)
    (segments : List String) :
    (notes.record path segments).segments other = notes.segments other := by
  rw [Annotations.segments, Annotations.record, List.find?_cons]
  have hne : (path.id == other.id) = false := by simpa using Ne.symm h
  rw [hne]
  rfl

theorem place_of_id (hpaths : (template.paths.map Path.id).Nodup) {place other : Place}
    (h : place ∈ template.places) (h' : other ∈ template.places)
    (hid : place.1.id = other.1.id) : place = other := by
  have hvalues : (template.places.map fun place => place.1.id).Nodup := by
    have hsub := hpaths.sublist (template.values_sublist.map Path.id)
    rw [values, List.map_map] at hsub
    exact hsub
  exact List.inj_on_of_nodup_map hvalues h h' hid

/-- A fresh name that stands for a path is emitted under the functions of the loops around the
path. -/
theorem arrows_of_mark (hpaths : (template.paths.map Path.id).Nodup) {path : Path}
    {enclosing : List Enclosure} {mark : String} {root : Jsx.Term} {arrows : List (List String)}
    (hplace : (path, enclosing) ∈ template.places) (hfresh : template.Fresh notes mark)
    (hroot : template.toTerm (notes.record path [mark]) = .ok root)
    (hmark : (mark, arrows) ∈ (options.toRoot root).names) :
    arrows = Enclosure.arrows options.arrows enclosing := by
  have hroots : (mark, arrows) ∈ root.names (Enclosure.arrows options.arrows []) := by
    rw [names_toRoot] at hmark
    exact hmark
  have haccounted : Jsx.Occurrence.Accounted (notes.record path [mark]) options.arrows
      template.places template.paths (mark, arrows) :=
    Statement.body_accounted (.mk 0 template) (fun _ h => h) (fun _ h => h) hroot _ hroots
  cases haccounted with
  | @value other around _ hother hhead =>
    have hmem : other ∈ template.paths :=
      template.values_sublist.subset (List.mem_map_of_mem (f := Prod.fst) hother)
    by_cases hid : other.id = path.id
    · cases place_of_id hpaths hother hplace hid
      rfl
    · rw [segments_record_other hid] at hhead
      exact absurd (List.mem_of_mem_head? hhead) (hfresh.segments other hmem)
  | callee hpath hname => exact absurd (List.mem_of_getLast? hname) (hfresh.parts _ hpath)
  | own hname => exact absurd hname hfresh.own

/-- Where a path of a template that was read and resolved is emitted, its first segment has the name
of the variable that the template designates, and denotes this variable exactly if no nearer loop
has a parameter of that name. In particular a path through two loops, or from one into the data
around a variable called like a parameter, is emitted and denotes another variable. -/
theorem denotes_designated_iff {source : List Char} {path : Path} {enclosing : List Enclosure}
    {mark name : String} {rest : List String} {root : Jsx.Term} {arrows : List (List String)}
    (hread : Template.read source = .ok template) (hresolve : template.resolve options = .ok notes)
    (hplace : (path, enclosing) ∈ template.places) (hfresh : template.Fresh notes mark)
    (hroot : template.toTerm (notes.record path [mark]) = .ok root)
    (hmark : (mark, arrows) ∈ (options.toRoot root).names)
    (hsegments : notes.segments path = name :: rest) :
    (∀ binder, Binder.designated options enclosing path = some binder → name = binder.name) ∧
    ((∃ binder, Binder.designated options enclosing path = some binder ∧
        Jsx.denotes name arrows = binder.parameter options) ↔
      ∃ binder, Binder.designated options enclosing path = some binder ∧
        binder.Uncaptured enclosing) := by
  obtain ⟨hpaths, hbodies⟩ := nodup_of_nodup_numbers (nodup_numbers_of_read hread)
  obtain ⟨env, he, hs⟩ := exists_resolve_of_place hbodies hpaths hresolve hplace
  have hname : ∀ binder, Binder.designated options enclosing path = some binder →
      name = binder.name := by
    intro binder hb
    have hhead := Binder.head_of_resolve he hs hb
    rw [hsegments] at hhead
    exact Option.some.inj hhead
  refine ⟨hname, ?_⟩
  rw [arrows_of_mark hpaths hplace hfresh hroot hmark]
  constructor
  · rintro ⟨binder, hb, hd⟩
    rw [hname binder hb] at hd
    exact ⟨binder, hb, (Binder.denotes_iff (Binder.present_of_designated hb)).1 hd⟩
  · rintro ⟨binder, hb, hu⟩
    refine ⟨binder, hb, ?_⟩
    rw [hname binder hb]
    exact (Binder.denotes_iff (Binder.present_of_designated hb)).2 hu

/-- Whether a mark that stands for a path is emitted under `arrows`, and what the path reads. -/
def emits (options : Options) (place : Place) (mark : String) (arrows : List (List String))
    (segments : List String) (template : Template) : Bool :=
  (template.resolve options).toOption.any fun notes =>
    (template.toTerm (notes.record place.1 [mark])).toOption.any fun root =>
      decide (place ∈ template.places ∧
        (∀ path ∈ template.paths, mark ∉ path.parts ∧ mark ∉ notes.segments path) ∧
        (mark, arrows) ∈ (options.toRoot root).names ∧ notes.segments place.1 = segments)

def leavingLoop : Path := ⟨4, "../x", ["x"], false, 1⟩

def twoLoops : List Char :=
  ("\x7b\x7b#each a\x7d\x7d" ++ "\x7b\x7b#each b\x7d\x7d" ++ "\x7b\x7b../x\x7d\x7d" ++
    "\x7b\x7b/each\x7d\x7d" ++ "\x7b\x7b/each\x7d\x7d").toList

/-- The path begins at the item of the outer loop, but the inner loop captures it. -/
theorem twoLoops_captured :
    ∃ template notes root arrows, Template.read twoLoops = .ok template ∧
      template.resolve {} = .ok notes ∧ (leavingLoop, [.loop, .loop]) ∈ template.places ∧
      template.Fresh notes "mark" ∧
      template.toTerm (notes.record leavingLoop ["mark"]) = .ok root ∧
      ("mark", arrows) ∈ (Options.toRoot {} root).names ∧
      notes.segments leavingLoop = ["item", "x"] ∧
      Binder.designated {} [.loop, .loop] leavingLoop = some (.item 0) ∧
      Jsx.denotes "item" arrows ≠ (Binder.item 0).parameter {} := by
  have hemits : (Template.read twoLoops).toOption.any (emits {} (leavingLoop, [.loop, .loop])
      "mark" [["item", "i"], ["item", "i"], ["props"]] ["item", "x"]) = true := by
    decide +kernel
  obtain ⟨template, hread, h⟩ := exists_ok_of_check hemits
  obtain ⟨notes, hresolve, h⟩ := exists_ok_of_check h
  obtain ⟨root, hroot, h⟩ := exists_ok_of_check h
  obtain ⟨hplace, hunused, hmark, hsegments⟩ := of_decide_eq_true h
  have hfresh : template.Fresh notes "mark" :=
    ⟨fun path hp => (hunused path hp).1, fun path hp => (hunused path hp).2, by decide⟩
  have hb : Binder.designated {} [.loop, .loop] leavingLoop = some (.item 0) := by decide
  obtain ⟨-, hiff⟩ :=
    denotes_designated_iff hread hresolve hplace hfresh hroot hmark hsegments
  refine ⟨template, notes, root, _, hread, hresolve, hplace, hfresh, hroot, hmark, hsegments,
    hb, fun hd => ?_⟩
  obtain ⟨binder, hb', hu⟩ := hiff.1 ⟨_, hb, hd⟩
  rw [hb] at hb'
  cases hb'
  cases hu

end Template

end MustacheJsx

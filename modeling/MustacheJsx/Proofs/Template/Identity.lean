import MustacheJsx.Proofs.Scope.Refinement
import MustacheJsx.Proofs.Template.Assembling

/-!
# A number belongs to one node

The numbers of a template that was read are those of one counter, and each is on one path or one
body. So the table of segments has one entry for each value, and the walk closes a scope at the end
of the body that has opened it: `Template.nodes_have_own_numbers`.
-/

namespace MustacheJsx

/-! ### Numbers as words -/

theorem nodup_map_ofNat {numbers : List Nat} (h : numbers.Nodup)
    (hsize : ∀ n ∈ numbers, n < UInt32.size) : (numbers.map UInt32.ofNat).Nodup := by
  refine List.Nodup.map_on (fun n hn m hm heq => ?_) h
  have hvalues := congrArg UInt32.toNat heq
  rwa [UInt32.toNat_ofNat_of_lt' (hsize n hn), UInt32.toNat_ofNat_of_lt' (hsize m hm)] at hvalues

/-! ### Bodies on the way -/

namespace Walk

/-- The walk of `statements` from `w` comes to a body in the state `w'`: to the program of a block
after its head, or to the inverse after the program. -/
inductive Reaches (w : Walk) (statements : List Statement) : Walk → Body → Prop where
  | program {w' : Walk} {head : BlockHead} {program : Body} {inverse : Option Body}
      (h : Meets w statements w' (.block head program inverse)) :
    Reaches w statements (w'.visitHead head) program
  | inverse {w' : Walk} {head : BlockHead} {program body : Body}
      (h : Meets w statements w' (.block head program (some body))) :
    Reaches w statements ((w'.visitHead head).visitBody program) body

/-- No open scope belongs to a body where the walk comes to it, nor to a body in it. -/
theorem Reaches.clear {w w' : Walk} {statements : List Statement} {body : Body}
    (h : Reaches w statements w' body) (hp : w.pending = none)
    (hc : w.Clear (Statement.bodyIdsOfAll statements)) :
    w'.Clear (Statement.bodyIdsOfBody body) := by
  cases h with
  | program hmeets =>
    obtain ⟨hpending, hclear⟩ := hmeets.clear hp hc
    exact hclear.of_program hpending
  | inverse hmeets =>
    obtain ⟨hpending, hclear⟩ := hmeets.clear hp hc
    exact hclear.of_inverse hpending

/-- A body that is visited from `w` ends with the scopes on the stack that it began with, and leaves
those that were there before. -/
structure Balances (w : Walk) (id : Nat) (statements : List Statement) : Prop where
  inside : ((w.enter id).visitStatements statements).scopes = (w.enter id).scopes
  after : (w.visitBody (.mk id statements)).scopes = w.scopes

theorem Clear.balances {w : Walk} {id : Nat} {statements : List Statement}
    (hc : w.Clear (Statement.bodyIdsOfBody (.mk id statements))) : w.Balances id statements where
  inside := (visitStatements_follows (w.enter id) statements (pending_enter w id) hc.enter).scopes
  after := (visitBody_follows w (.mk id statements) hc).scopes

end Walk

/-! ### Templates that were read -/

namespace Template

theorem keys_of_resolve {template : Template} {options : Options} {notes : Annotations}
    (hbodies : template.bodyIds.Nodup) (h : template.resolve options = .ok notes) :
    notes.paths.reverse.map Prod.fst = template.values.map Path.id := by
  obtain ⟨rs, hr, hentries⟩ := exists_readings_of_resolve hbodies h
  have hvalues : rs.map Prod.fst = template.values := (readings_aligned hr).map_fst
  rw [hentries, Walk.entries, List.reverse_reverse, ← hvalues, List.map_map, List.map_map]
  rfl

/-- Every path and every body of a template that was read has a number of its own: the numbers are
among those that were handed out on the way, and differ as words if these are not too many. So no
entry of the table of segments replaces another, and a body closes the scope that it has opened, if
it has opened one, and no other. -/
theorem nodes_have_own_numbers {source : List Char} {template : Template}
    (h : Template.read source = .ok template) :
    template.numbers.Nodup ∧
    (∃ a, Assembly.Ends source a ∧ (∀ n ∈ template.numbers, n < a.next) ∧
      (a.next ≤ UInt32.size → (template.numbers.map UInt32.ofNat).Nodup)) ∧
    (∀ options notes, template.resolve options = .ok notes →
      (notes.paths.map Prod.fst).Nodup ∧
        notes.paths.reverse.map Prod.fst = template.values.map Path.id) ∧
    ∀ options w id statements,
      Walk.Reaches (Walk.start options) template w (.mk id statements) →
        w.Balances id statements := by
  have hnumbers := nodup_numbers_of_read h
  obtain ⟨hpaths, hbodies⟩ := nodup_of_nodup_numbers hnumbers
  refine ⟨hnumbers, ?_, ?_, ?_⟩
  · obtain ⟨a, hends, hcounts⟩ := exists_ends_of_read h
    have hbelow : ∀ n ∈ template.numbers, n < a.next := fun n hn =>
      lt_of_handedOut_pos (Nat.lt_of_lt_of_le (List.count_pos_iff.2 hn) (hcounts n))
    exact ⟨a, hends, hbelow, fun hsize =>
      nodup_map_ofNat hnumbers fun n hn => Nat.lt_of_lt_of_le (hbelow n hn) hsize⟩
  · intro options notes hresolve
    have hkeys := keys_of_resolve hbodies hresolve
    refine ⟨?_, hkeys⟩
    rw [← List.nodup_reverse, ← List.map_reverse, hkeys]
    exact hpaths.sublist (template.values_sublist.map Path.id)
  · intro options w id statements hreaches
    exact (hreaches.clear rfl (Walk.start_clear options hbodies)).balances

/-- A loop around a choice of three branches, which calls helpers with arguments of both kinds. -/
def chosenRows : List Char :=
  ("\x7b\x7b#each rows\x7d\x7d" ++ "\x7b\x7b#if a\x7d\x7dx" ++
    "\x7b\x7belse if (eq b c)\x7d\x7d" ++ "\x7b\x7bformat d as=e\x7d\x7d" ++
    "\x7b\x7belse\x7d\x7dy" ++ "\x7b\x7b/if\x7d\x7d" ++ "\x7b\x7b/each\x7d\x7d").toList

/-- The paths are numbered where they are written and the bodies when they are closed, that of the
synthesized block among them; the table has the values alone. -/
theorem chosenRows_have_own_numbers :
    ∃ template notes, Template.read chosenRows = .ok template ∧
      template.numbers = [0, 1, 15, 2, 3, 14, 13, 4, 5, 6, 7, 12, 8, 9, 10, 11] ∧
      template.numbers.Nodup ∧ template.resolve {} = .ok notes ∧
      notes.paths.reverse.map Prod.fst = [1, 3, 6, 7, 9, 10] := by
  have hcheck : (Template.read chosenRows).toOption.any (fun template =>
      (template.resolve {}).toOption.any fun _ =>
        decide (template.numbers = [0, 1, 15, 2, 3, 14, 13, 4, 5, 6, 7, 12, 8, 9, 10, 11] ∧
          template.values.map Path.id = [1, 3, 6, 7, 9, 10])) = true := by
    decide +kernel
  obtain ⟨template, hread, h⟩ := exists_ok_of_check hcheck
  obtain ⟨notes, hresolve, h⟩ := exists_ok_of_check h
  obtain ⟨hnumbers, hvalues⟩ := of_decide_eq_true h
  obtain ⟨hnodup, -, htable, -⟩ := nodes_have_own_numbers hread
  exact ⟨template, notes, hread, hnumbers, hnodup, hresolve,
    (htable {} notes hresolve).2.trans hvalues⟩

end Template

end MustacheJsx

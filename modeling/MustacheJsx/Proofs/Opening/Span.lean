import MustacheJsx.Mustache.Span
import MustacheJsx.Mustache.Tag
import MustacheJsx.Proofs.Outcome

/-!
# Where a mustache ends, and what it is

A mustache is cut out at the first place where it may end, so its span does not depend on what comes
after it: `Span.read_append`. It is a comment only if it begins like one.
-/

namespace MustacheJsx

theorem Text.afterLead?_append {lead cs : List Char} (rest : List Char)
    (h : lead.length ≤ cs.length) :
    Text.afterLead? lead (cs ++ rest) = (Text.afterLead? lead cs).map (· ++ rest) := by
  induction lead generalizing cs with
  | nil => rfl
  | cons l lead ih =>
    cases cs with
    | nil => cases h
    | cons c cs =>
      rw [List.cons_append, Text.afterLead?, Text.afterLead?]
      split
      · exact ih (Nat.le_of_succ_le_succ h)
      · rfl

namespace Span

theorem cutAtClose?_append {close cs content after : List Char} {quoting : Quoting}
    (h : cutAtClose? close quoting cs = some (content, after)) (rest : List Char) :
    cutAtClose? close quoting (cs ++ rest) = some (content, after ++ rest) := by
  induction cs generalizing quoting content with
  | nil => cases h
  | cons c cs ih =>
    have hlength : close.length ≤ (c :: cs).length := by
      rw [eq_append_of_cutAtClose? h]
      simp only [List.length_append]
      omega
    have hlead : (if quoting = .outside then Text.afterLead? close (c :: (cs ++ rest)) else none) =
        (if quoting = .outside then Text.afterLead? close (c :: cs) else none).map (· ++ rest) := by
      split
      · exact Text.afterLead?_append rest hlength
      · rfl
    rw [cutAtClose?] at h
    rw [List.cons_append, cutAtClose?, hlead]
    split at h
    · next found hfound =>
      cases h
      rw [hfound]
      rfl
    · next hnone =>
      obtain ⟨⟨before, behind⟩, hcut, hpair⟩ := Option.map_eq_some_iff.1 h
      cases hpair
      rw [hnone, ih hcut]
      rfl

theorem length_of_cutAtDashes? {cs : List Char} {cut : List Char × Bool × List Char}
    (h : cutAtDashes? cs = some cut) : 4 ≤ cs.length := by
  have hlength : ∀ {lead after : List Char}, Text.afterLead? lead cs = some after →
      lead.length ≤ cs.length := by
    intro lead after hlead
    rw [Text.afterLead?_eq_some_iff.1 hlead, List.length_append]
    omega
  induction cs generalizing cut with
  | nil => cases h
  | cons c cs ih =>
    rw [cutAtDashes?] at h
    cases hshort : Text.afterLead? ['-', '-', '}', '}'] (c :: cs) with
    | some after => exact hlength hshort
    | none =>
      cases hlong : Text.afterLead? ['-', '-', '~', '}', '}'] (c :: cs) with
      | some after => exact Nat.le_of_succ_le (hlength hlong)
      | none =>
        rw [hshort, hlong] at h
        obtain ⟨cut', hcut, -⟩ := Option.map_eq_some_iff.1 h
        refine Nat.le_succ_of_le (ih hcut fun hlead => ?_)
        rw [Text.afterLead?_eq_some_iff.1 hlead, List.length_append]
        omega

theorem cutAtDashes?_append {cs before after : List Char} {strip : Bool}
    (h : cutAtDashes? cs = some (before, strip, after)) (rest : List Char) :
    cutAtDashes? (cs ++ rest) = some (before, strip, after ++ rest) := by
  induction cs generalizing before with
  | nil => cases h
  | cons c cs ih =>
    have hshort := @Text.afterLead?_append ['-', '-', '}', '}'] _ rest (length_of_cutAtDashes? h)
    rw [cutAtDashes?] at h
    rw [List.cons_append, cutAtDashes?, ← List.cons_append, hshort]
    cases hlead : Text.afterLead? ['-', '-', '}', '}'] (c :: cs) with
    | some behind =>
      rw [hlead] at h
      cases h
      rfl
    | none =>
      rw [hlead] at h
      cases hlead' : Text.afterLead? ['-', '-', '~', '}', '}'] (c :: cs) with
      | some behind =>
        rw [hlead'] at h
        cases h
        have hlong : Text.afterLead? ['-', '-', '~', '}', '}'] (c :: cs ++ rest) =
            some (after ++ rest) := by
          rw [Text.afterLead?_eq_some_iff, Text.afterLead?_eq_some_iff.1 hlead', List.append_assoc]
        rw [hlong]
        rfl
      | none =>
        rw [hlead'] at h
        obtain ⟨⟨before', strip', after'⟩, hcut, hpair⟩ := Option.map_eq_some_iff.1 h
        cases hpair
        have hlength : 5 ≤ (c :: cs).length := Nat.succ_le_succ (length_of_cutAtDashes? hcut)
        have hlong := @Text.afterLead?_append ['-', '-', '~', '}', '}'] _ rest hlength
        rw [hlead'] at hlong
        rw [hlong, ih hcut]
        rfl

theorem leadingTilde_append {cs : List Char} (h : cs ≠ []) (rest : List Char) :
    leadingTilde (cs ++ rest) = ((leadingTilde cs).1, (leadingTilde cs).2 ++ rest) := by
  cases cs with
  | nil => exact absurd rfl h
  | cons c cs =>
    rw [leadingTilde.eq_def, leadingTilde.eq_def]
    split
    · next heq =>
      cases heq
      rfl
    · next hnot =>
      split
      · next heq =>
        cases heq
        exact absurd rfl (hnot _)
      · rfl

theorem trailingTilde_isPrefix (cs : List Char) : (trailingTilde cs).2 <+: cs := by
  rw [trailingTilde.eq_def]
  split
  · next before hreverse =>
    refine ⟨['~'], ?_⟩
    rw [← List.reverse_cons, ← hreverse, List.reverse_reverse]
  · exact List.prefix_refl _

theorem length_leadingTilde_le (cs : List Char) : (leadingTilde cs).2.length ≤ cs.length := by
  rw [leadingTilde.eq_def]
  split
  · exact Nat.le_succ _
  · exact Nat.le_refl _

/-- What the inside of a mustache begins with is told apart before its end. -/
theorem afterLead?_comment_append {close body content after : List Char} {quoting : Quoting}
    (hclose : close.head? = some '}') (hlength : 2 ≤ close.length)
    (hcut : cutAtClose? close quoting body = some (content, after))
    (hnone : Text.afterLead? ['!', '-', '-'] body = none) (rest : List Char) :
    Text.afterLead? ['!', '-', '-'] (body ++ rest) = none := by
  have hbody := eq_append_of_cutAtClose? hcut
  cases content with
  | nil =>
    cases close with
    | nil => cases hclose
    | cons d close =>
      cases hclose
      rw [hbody]
      simp [Text.afterLead?]
  | cons c content =>
    have hle : 3 ≤ body.length := by
      rw [hbody]
      simp only [List.length_append, List.length_cons]
      omega
    have happend := @Text.afterLead?_append ['!', '-', '-'] _ rest hle
    rw [happend, hnone]
    rfl

theorem read_append {cs : List Char} {span : Span} (h : Span.read cs = .ok span)
    (rest : List Char) : Span.read (cs ++ rest) = .ok { span with rest := span.rest ++ rest } := by
  rw [Span.read] at h ⊢
  dsimp only at h ⊢
  generalize hbraces : (if Text.startsWith ['{', '{', '{'] cs then 3 else 2) = braces at h
  have hle : 2 ≤ braces := by
    rw [← hbraces]
    split <;> omega
  have htilde := length_leadingTilde_le (cs.drop braces)
  rw [List.length_drop] at htilde
  -- The closing braces stand in the body, so what is looked ahead at stands in the mustache.
  have hbody : 2 ≤ (leadingTilde (cs.drop braces)).2.length := by
    split at h
    · next inner hinner =>
      split at h
      · next hcut =>
        have hlength := length_of_cutAtDashes? hcut
        rw [Text.afterLead?_eq_some_iff.1 hinner, List.length_append]
        omega
      · cases h
    · split at h
      · next hcut =>
        rw [eq_append_of_cutAtClose? hcut]
        simp only [List.length_append, List.length_replicate]
        omega
      · cases h
  have hlength : 4 ≤ cs.length := by omega
  have hstarts : Text.startsWith ['{', '{', '{'] (cs ++ rest) =
      Text.startsWith ['{', '{', '{'] cs := by
    have happend := @Text.afterLead?_append ['{', '{', '{'] cs rest (Nat.le_of_succ_le hlength)
    rw [Text.startsWith, happend, Option.isSome_map]
    rfl
  have hne : cs.drop braces ≠ [] := by
    intro hnil
    rw [hnil] at hbody
    simp [leadingTilde] at hbody
  rw [hstarts, hbraces, List.drop_append_of_le_length (by omega), leadingTilde_append hne]
  dsimp only
  split at h
  · next inner hinner =>
    have hlead : Text.afterLead? ['!', '-', '-'] ((leadingTilde (cs.drop braces)).2 ++ rest) =
        some (inner ++ rest) := by
      rw [Text.afterLead?_eq_some_iff, Text.afterLead?_eq_some_iff.1 hinner, List.append_assoc]
    rw [hlead]
    dsimp only
    split at h
    · next hcut =>
      cases h
      rw [cutAtDashes?_append hcut]
    · cases h
  · next hinner =>
    split at h
    · next hcut =>
      cases h
      have hclose : (List.replicate braces '}').head? = some '}' := by
        rw [List.head?_replicate, if_neg (by omega)]
      have hnone := afterLead?_comment_append hclose (by simpa using hle) hcut hinner rest
      rw [hnone]
      dsimp only
      rw [cutAtClose?_append hcut]
    · cases h

end Span

/-! ### Comments -/

namespace Tag

def ReadsNoComment (reader : ReadM Tag) : Prop :=
  ∀ first last value, reader.run first ≠ (.ok (.comment value), last)

theorem readsNoComment_bind {α : Type} (reader : ReadM α) {next : α → ReadM Tag}
    (h : ∀ a, ReadsNoComment (next a)) : ReadsNoComment (reader >>= next) := by
  intro first last value heq
  rw [run_bind] at heq
  split at heq
  · exact h _ _ _ _ heq
  · cases heq

theorem readsNoComment_halt (fault : SyntaxFault) (rest : List Char) :
    ReadsNoComment (halt fault rest) := nofun

theorem readsNoComment_readMustache (trusting : Bool) (cs : List Char) :
    ReadsNoComment (readMustache trusting cs) :=
  readsNoComment_bind _ fun _ => nofun

theorem readsNoComment_readPartial (cs : List Char) : ReadsNoComment (readPartial cs) := by
  refine readsNoComment_bind _ fun ⟨name, rest⟩ => ?_
  dsimp only
  split
  · exact readsNoComment_halt _ _
  · refine readsNoComment_bind _ fun ⟨params, hash, rest⟩ => ?_
    dsimp only
    split
    · nofun
    · exact readsNoComment_halt _ _

theorem readsNoComment_readTrimmed (cs : List Char) : ReadsNoComment (readTrimmed cs) := by
  rw [readTrimmed.eq_def]
  split
  · exact readsNoComment_halt _ _
  · split
    · exact readsNoComment_halt _ _
    · exact readsNoComment_halt _ _
    · exact readsNoComment_bind _ fun _ => nofun
  · dsimp only
    split
    · exact readsNoComment_halt _ _
    · nofun
  · exact readsNoComment_readPartial _
  · split
    · nofun
    · exact readsNoComment_halt _ _
  · exact readsNoComment_readMustache _ _
  · split
    · nofun
    · split
      · exact readsNoComment_bind _ fun _ => nofun
      · exact readsNoComment_readMustache _ _

theorem ne_comment_of_read {content : List Char} {trusting : Bool} {offset next last : Nat}
    {tag : Tag} (hcontent : content.head? ≠ some '!')
    (h : Tag.read content trusting offset next = (.ok tag, last)) (value : String) :
    tag ≠ .comment value := by
  rintro rfl
  rw [Tag.read.eq_def] at h
  split at h
  · exact hcontent rfl
  · dsimp only at h
    split at h
    · next hrun =>
      cases h
      split at hrun
      · exact readsNoComment_readMustache _ _ _ _ _ hrun
      · exact readsNoComment_readTrimmed _ _ _ _ hrun
    · cases h

end Tag

end MustacheJsx

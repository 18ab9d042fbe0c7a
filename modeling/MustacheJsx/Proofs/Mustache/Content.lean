import Mathlib.Data.List.TakeWhile
import MustacheJsx.Proofs.Mustache.Quoting
import MustacheJsx.Template.Paths

/-!
# The inside of a tag closes its quotes

The reader of tags meets quotes in two kinds of places: around strings, which it reads to their end,
and as characters of words, by which are meant paths, names and the texts of comments. The reader of
spans does not tell them apart. So a tag ends at its braces if each of its words closes its quotes,
and in any case exactly if the whole inside of the tag does: `Span.read_braced_iff`. What the
readers of expressions go past is followed by induction along their steps, `Expression.ReadSteps`.
-/

namespace MustacheJsx

open MustacheJsx.Span (Quoting ClosesQuotes closesQuotes_of_forall)

/-! ### The words of a tag -/

def argumentWords (params : List Expression) (hash : Hash) : List String :=
  (pathsOfArguments params hash).map Path.spelling

def BlockHead.words (head : BlockHead) : List String :=
  head.name :: argumentWords head.params head.hash

/-- What a tag writes without quotes around it. -/
def Tag.words : Tag → List String
  | .expression m => m.paths.map Path.spelling
  | .comment value => [value]
  | .partialCall call => call.name :: argumentWords call.params call.hash
  | .openBlock head => head.words
  | .elseBranch none => []
  | .elseBranch (some head) => head.words
  | .closeBlock name => [name]

/-- Words that close their quotes, each of them. -/
def WordsClose (words : List String) : Prop := ∀ word ∈ words, ClosesQuotes word.toList

/-! ### Outcomes of readers -/

/-- What a reader that succeeds answers with. -/
def Yields {α : Type} (reader : ReadM α) (post : α → Prop) : Prop :=
  ∀ first a last, reader.run first = (.ok a, last) → post a

namespace Yields

variable {α β : Type}

theorem pure {a : α} {post : α → Prop} (h : post a) : Yields (Pure.pure a) post := by
  intro first b last hr
  cases hr
  exact h

theorem halt {fault : SyntaxFault} {rest : List Char} {post : α → Prop} :
    Yields (halt fault rest) post := by
  intro first b last hr
  cases hr

theorem bind {reader : ReadM α} {next : α → ReadM β} {mid : α → Prop} {post : β → Prop}
    (h : Yields reader mid) (h' : ∀ a, mid a → Yields (next a) post) :
    Yields (reader >>= next) post := by
  intro first b last hr
  rw [run_bind] at hr
  cases hf : reader.run first with
  | mk result middle =>
    rw [hf] at hr
    cases result with
    | error e => cases hr
    | ok a => exact h' a (h first a middle hf) middle b last hr

end Yields

/-! ### Passing over text -/

/-- `rest` is what is left of `cs` after a text that closes its quotes. -/
def Passes (cs rest : List Char) : Prop := ∃ passed, cs = passed ++ rest ∧ ClosesQuotes passed

namespace Passes

variable {cs ds rest : List Char}

theorem trans (h : Passes cs ds) (h' : Passes ds rest) : Passes cs rest := by
  obtain ⟨passed, rfl, hpassed⟩ := h
  obtain ⟨passed', rfl, hpassed'⟩ := h'
  exact ⟨passed ++ passed', by rw [List.append_assoc], hpassed.append hpassed'⟩

theorem cons {c : Char} (hdouble : c ≠ '"') (hsingle : c ≠ '\'') (cs : List Char) :
    Passes (c :: cs) cs := by
  refine ⟨[c], rfl, closesQuotes_of_forall fun d hd => ?_⟩
  rw [List.mem_singleton.1 hd]
  exact ⟨hdouble, hsingle⟩

theorem dropWhile {p : Char → Bool} (hdouble : p '"' = false) (hsingle : p '\'' = false)
    (cs : List Char) : Passes cs (cs.dropWhile p) := by
  refine ⟨cs.takeWhile p, List.takeWhile_append_dropWhile.symm, ?_⟩
  refine closesQuotes_of_forall fun c hc => ?_
  have hp : p c = true := List.mem_takeWhile_imp hc
  constructor
  · rintro rfl
    rw [hdouble] at hp
    cases hp
  · rintro rfl
    rw [hsingle] at hp
    cases hp

theorem trimStart (cs : List Char) : Passes cs (Text.trimStart cs) := dropWhile rfl rfl cs

theorem of_closes (h : ClosesQuotes cs) (rest : List Char) : Passes (cs ++ rest) rest :=
  ⟨cs, rfl, h⟩

theorem closes (h : Passes cs []) : ClosesQuotes cs := by
  obtain ⟨passed, rfl, hpassed⟩ := h
  rw [List.append_nil]
  exact hpassed

end Passes

theorem exists_eq_trim (cs : List Char) :
    ∃ before after, cs = before ++ Text.trim cs ++ after ∧
      ∀ c ∈ before ++ after, Text.isBlank c = true := by
  have hblank : ∀ ds : List Char, ∀ c ∈ ds.takeWhile Text.isBlank, Text.isBlank c = true :=
    fun ds c hc => List.mem_takeWhile_imp hc
  have hstart := (List.takeWhile_append_dropWhile (p := Text.isBlank) (l := cs)).symm
  have hend := (List.takeWhile_append_dropWhile (p := Text.isBlank)
    (l := (Text.trimStart cs).reverse)).symm
  have hend' := congrArg List.reverse hend
  rw [List.reverse_reverse, List.reverse_append] at hend'
  refine ⟨cs.takeWhile Text.isBlank, ((Text.trimStart cs).reverse.takeWhile Text.isBlank).reverse,
    ?_, ?_⟩
  · rw [List.append_assoc, Text.trim, Text.trimEnd, ← hend']
    exact hstart
  · intro c hc
    rcases List.mem_append.1 hc with hc | hc
    · exact hblank _ c hc
    · exact hblank _ c (List.mem_reverse.1 hc)

theorem closesQuotes_of_trim {cs : List Char} (h : ClosesQuotes (Text.trim cs)) :
    ClosesQuotes cs := by
  obtain ⟨before, after, hcs, hblank⟩ := exists_eq_trim cs
  have hne : ∀ c ∈ before ++ after, c ≠ '"' ∧ c ≠ '\'' := by
    intro c hc
    have hc := hblank c hc
    refine ⟨?_, ?_⟩ <;> rintro rfl <;> cases hc
  rw [hcs]
  have hbefore := closesQuotes_of_forall fun c hc => hne c (List.mem_append_left after hc)
  have hafter := closesQuotes_of_forall fun c hc => hne c (List.mem_append_right before hc)
  exact (hbefore.append h).append hafter

/-! ### Strings and tokens -/

namespace Expression

theorem exists_of_takeString {quote : Char} (hquote : quote ≠ '\\') {cs value rest : List Char}
    (h : takeString quote cs = some (value, rest)) :
    ∃ passed, cs = passed ++ rest ∧ (Quoting.inside quote).afterAll passed = .outside := by
  fun_induction takeString quote cs generalizing value with
  | case1 => cases h
  | case2 => cases h
  | case3 c cs ih =>
    obtain ⟨⟨value', rest'⟩, hstring, hpair⟩ := Option.map_eq_some_iff.1 h
    cases hpair
    obtain ⟨passed, rfl, hpassed⟩ := ih hstring
    refine ⟨'\\' :: c :: passed, rfl, ?_⟩
    simpa [Quoting.after] using hpassed
  | case4 cs =>
    cases h
    exact ⟨[quote], rfl, by simp [Quoting.after, hquote]⟩
  | case5 c cs hlast hescape hc ih =>
    obtain ⟨⟨value', rest'⟩, hstring, hpair⟩ := Option.map_eq_some_iff.1 h
    cases hpair
    obtain ⟨passed, rfl, hpassed⟩ := ih hstring
    have hslash : c ≠ '\\' := by
      intro heq
      cases hcs : passed ++ rest with
      | nil => exact hlast heq hcs
      | cons d ds => exact hescape d ds heq hcs
    refine ⟨c :: passed, rfl, ?_⟩
    simpa [Quoting.after, hslash, hc] using hpassed

theorem readString_passes {quote : Char} (hquote : quote = '"' ∨ quote = '\'') (cs : List Char) :
    Yields (readString quote cs) fun read => Passes (quote :: cs) read.2 := by
  rw [readString]
  split
  · next value rest hstring =>
    have hslash : quote ≠ '\\' := by
      rcases hquote with rfl | rfl <;> decide
    obtain ⟨passed, rfl, hpassed⟩ := exists_of_takeString hslash hstring
    refine .pure ⟨quote :: passed, rfl, ?_⟩
    rw [ClosesQuotes, Quoting.afterAll_cons, Quoting.after, if_pos hquote]
    exact hpassed
  · exact .halt

theorem ne_quote_of_isAsciiDigit {c : Char} (h : Text.isAsciiDigit c = true) :
    c ≠ '"' ∧ c ≠ '\'' := by
  constructor
  · rintro rfl
    cases h
  · rintro rfl
    cases h

theorem ne_quote_of_digits {cs : List Char}
    (h : ∀ c ∈ cs.dropWhile Text.isAsciiDigit, c ≠ '"' ∧ c ≠ '\'') :
    ∀ c ∈ cs, c ≠ '"' ∧ c ≠ '\'' := by
  intro c hc
  rw [← List.takeWhile_append_dropWhile (p := Text.isAsciiDigit) (l := cs)] at hc
  rcases List.mem_append.1 hc with hc | hc
  · exact ne_quote_of_isAsciiDigit (List.mem_takeWhile_imp hc)
  · exact h c hc

theorem ne_quote_of_mem_number {token : List Char} {value : Double}
    (h : number? token = some value) : ∀ c ∈ token, c ≠ '"' ∧ c ≠ '\'' := by
  unfold number? at h
  split at h
  next negative digits hsign =>
  have hdigits : ∀ c ∈ digits, c ≠ '"' ∧ c ≠ '\'' := by
    apply ne_quote_of_digits
    dsimp only at h
    split at h
    · cases h
    · next heq _ =>
      rw [heq]
      nofun
    · next heq _ =>
      rw [heq]
      split at h
      · next hall =>
        rw [Bool.and_eq_true] at hall
        intro c hc
        rcases List.mem_cons.1 hc with rfl | hc
        · decide
        · exact ne_quote_of_isAsciiDigit (List.all_eq_true.1 hall.2 c hc)
      · cases h
    · cases h
  split at hsign
  · cases hsign
    intro c hc
    rcases List.mem_cons.1 hc with rfl | hc
    · decide
    · exact hdigits c hc
  · cases hsign
    exact hdigits

theorem closesQuotes_of_literal? {token : List Char} {value : Literal}
    (h : literal? token = some value) : ClosesQuotes token := by
  rw [literal?] at h
  split at h
  · next heq => exact heq ▸ by decide
  · split at h
    · next heq => exact heq ▸ by decide
    · split at h
      · next heq => exact heq ▸ by decide
      · split at h
        · next heq => exact heq ▸ by decide
        · obtain ⟨number, hnumber, -⟩ := Option.map_eq_some_iff.1 h
          exact closesQuotes_of_forall (ne_quote_of_mem_number hnumber)

theorem readBare_passes (cs : List Char) :
    Yields (readBare cs) fun read =>
      WordsClose (read.1.paths.map Path.spelling) → Passes cs read.2 := by
  rw [readBare]
  have happend := takeToken_append false cs
  generalize takeToken false cs = cut at happend
  obtain ⟨token, rest⟩ := cut
  dsimp only at happend ⊢
  split
  · exact .halt
  · split
    · next value hvalue =>
      refine .pure fun _ => ?_
      rw [← happend]
      exact .of_closes (closesQuotes_of_literal? hvalue) rest
    · have hid : Yields nextId fun _ => True := fun _ _ _ _ => trivial
      refine hid.bind fun id _ => ?_
      split
      · next path hpath =>
        refine .pure fun hwords => ?_
        have hword := hwords path.spelling (by simp [paths])
        rw [(Path.spelling_of_ofToken? hpath).1, String.toList_ofList] at hword
        rw [← happend]
        exact .of_closes hword rest
      · exact .halt

/-! ### Expressions and arguments -/

theorem takeKey?_passes {cs rest : List Char} {key : String} (h : takeKey? cs = some (key, rest)) :
    Passes cs rest := by
  rw [takeKey?] at h
  have hkey : Passes cs (cs.dropWhile isKeyChar) := Passes.dropWhile rfl rfl cs
  have hblanks := hkey.trans (Passes.trimStart _)
  split at h
  · next rest' hequals =>
    split at h
    · cases h
    · cases h
      rw [hequals] at hblanks
      exact (hblanks.trans (.cons (by decide) (by decide) _)).trans (.trimStart _)
  · cases h

theorem WordsClose.append {words others : List String} :
    WordsClose (words ++ others) ↔ WordsClose words ∧ WordsClose others :=
  List.forall_mem_append

/-- A property of what is read, of the text it is read from and of the text behind it, that the
steps of the readers of expressions and of arguments preserve. -/
structure ReadSteps (one : Expression → List Char → List Char → Prop)
    (many : List Expression → Hash → List Char → List Char → Prop) : Prop where
  call : ∀ {callee params hash cs rest rest' rest''}, one callee (Text.trimStart cs) rest →
    many params hash rest rest' → Text.trimStart rest' = ')' :: rest'' →
    one (.call callee params hash) ('(' :: cs) rest''
  string : ∀ {quote}, quote = '"' ∨ quote = '\'' → ∀ cs,
    Yields (readString quote cs) fun read => one (.literal (.string read.1)) (quote :: cs) read.2
  bare : ∀ cs, Yields (readBare cs) fun read => one read.1 cs read.2
  stop : ∀ cs, many [] [] cs (Text.trimStart cs)
  named : ∀ {key value params hash cs rest rest' rest''},
    takeKey? (Text.trimStart cs) = some (key, rest) → one value rest rest' →
    many params hash rest' rest'' → many params ((key, value) :: hash) cs rest''
  positional : ∀ {param params hash cs rest rest'}, one param (Text.trimStart cs) rest →
    many params hash rest rest' → many (param :: params) hash cs rest'

namespace ReadSteps

variable {one : Expression → List Char → List Char → Prop}
  {many : List Expression → Hash → List Char → List Char → Prop} (steps : ReadSteps one many)
include steps

mutual

/-- Induction along the readers: what their steps preserve holds of all that they read. -/
theorem yields_readWith (fuel : Nat) (cs : List Char) :
    Yields (readWith fuel cs) fun read => one read.1 cs read.2 := by
  match fuel with
  | 0 => exact .halt
  | fuel + 1 =>
    rw [readWith.eq_def]
    dsimp only
    split
    · refine (yields_readWith fuel _).bind fun ⟨callee, rest⟩ hcallee => ?_
      refine (yields_readArguments fuel _ _).bind fun ⟨params, hash, rest'⟩ harguments => ?_
      split
      · next rest'' hclose => exact .pure (steps.call hcallee harguments hclose)
      · exact .halt
      · exact .halt
    · exact (steps.string (.inl rfl) _).bind fun value hstring => .pure hstring
    · exact (steps.string (.inr rfl) _).bind fun value hstring => .pure hstring
    · exact steps.bare _

theorem yields_readArguments (fuel : Nat) (named : Bool) (cs : List Char) :
    Yields (readArguments fuel named cs) fun read => many read.1 read.2.1 cs read.2.2 := by
  match fuel with
  | 0 => exact .halt
  | fuel + 1 =>
    rw [readArguments.eq_def]
    dsimp only
    have hstop := steps.stop cs
    split
    · next hnil =>
      rw [hnil] at hstop
      exact .pure hstop
    · next rest hclose =>
      rw [hclose] at hstop
      exact .pure hstop
    · split
      · exact .halt
      · split
        · next key rest hkey =>
          refine (yields_readWith fuel _).bind fun ⟨value, rest'⟩ hvalue => ?_
          refine (yields_readArguments fuel _ _).bind fun ⟨params, hash, rest''⟩ hmore => ?_
          exact .pure (steps.named hkey hvalue hmore)
        · split
          · exact .halt
          · refine (yields_readWith fuel _).bind fun ⟨param, rest'⟩ hparam => ?_
            refine (yields_readArguments fuel _ _).bind fun ⟨params, hash, rest''⟩ hmore => ?_
            exact .pure (steps.positional hparam hmore)

end

end ReadSteps

theorem passes_readSteps : ReadSteps
    (fun e cs rest => WordsClose (e.paths.map Path.spelling) → Passes cs rest)
    (fun params hash cs rest => WordsClose (argumentWords params hash) → Passes cs rest) where
  call {callee params hash cs rest rest' rest''} hcallee harguments hclose hwords := by
    rw [paths, List.append_assoc, List.map_append, WordsClose.append] at hwords
    have hopen : Passes ('(' :: cs) (Text.trimStart cs) :=
      (Passes.cons (by decide) (by decide) cs).trans (.trimStart cs)
    have hend : Passes rest' rest'' := by
      have htrim := Passes.trimStart rest'
      rw [hclose] at htrim
      exact htrim.trans (.cons (by decide) (by decide) rest'')
    exact ((hopen.trans (hcallee hwords.1)).trans (harguments hwords.2)).trans hend
  string hquote cs first read last hrun _ := readString_passes hquote cs first read last hrun
  bare := readBare_passes
  stop cs _ := .trimStart cs
  named {key value params hash cs rest rest' rest''} hkey hvalue hmore hwords := by
    rw [argumentWords, pathsOfArguments, pathsOfHash, List.map_append, List.map_append,
      WordsClose.append, WordsClose.append] at hwords
    obtain ⟨hparams, hhash, hrest⟩ := hwords
    have harguments : WordsClose (argumentWords params hash) := by
      rw [argumentWords, pathsOfArguments, List.map_append, WordsClose.append]
      exact ⟨hparams, hrest⟩
    have hpast := (Passes.trimStart cs).trans (takeKey?_passes hkey)
    exact (hpast.trans (hvalue hhash)).trans (hmore harguments)
  positional {param params hash cs rest rest'} hparam hmore hwords := by
    rw [argumentWords, pathsOfArguments, pathsOfParams, List.append_assoc, List.map_append,
      WordsClose.append] at hwords
    exact ((Passes.trimStart cs).trans (hparam hwords.1)).trans (hmore hwords.2)

theorem readCall_passes (cs : List Char) :
    Yields (readCall cs) fun call =>
      WordsClose (call.1.paths.map Path.spelling ++ argumentWords call.2.1 call.2.2) →
        ClosesQuotes cs := by
  rw [readCall]
  refine (passes_readSteps.yields_readWith _ _).bind fun ⟨head, rest⟩ hhead => ?_
  refine (passes_readSteps.yields_readArguments _ _ _).bind
    fun ⟨params, hash, rest'⟩ harguments => ?_
  dsimp only at harguments ⊢
  split
  · refine .pure ?_
    intro hwords
    rw [WordsClose.append] at hwords
    exact (((Passes.trimStart cs).trans (hhead hwords.1)).trans (harguments hwords.2)).closes
  · exact .halt

end Expression

/-! ### Tags -/

namespace Tag

theorem readMustache_closes (trusting : Bool) (cs : List Char) :
    Yields (readMustache trusting cs) fun tag => WordsClose tag.words → ClosesQuotes cs := by
  rw [readMustache]
  refine (Expression.readCall_passes cs).bind fun ⟨callee, params, hash⟩ hcall =>
    .pure fun hwords => ?_
  rw [words, Mustache.paths, List.map_append] at hwords
  exact hcall hwords

theorem readBlockHead_closes (cs : List Char) :
    Yields (readBlockHead cs) fun head => WordsClose head.words → ClosesQuotes cs := by
  rw [readBlockHead]
  refine (Expression.readCall_passes cs).bind fun ⟨head, params, hash⟩ hcall => ?_
  dsimp only
  split
  · exact .pure fun hwords => hcall hwords
  · exact .halt

theorem readPartialName_passes (cs : List Char) :
    Yields (readPartialName cs) fun read => ClosesQuotes read.1.toList → Passes cs read.2 := by
  rw [readPartialName]
  have htrim := Passes.trimStart cs
  split
  · exact .halt
  · next rest hquote =>
    rw [hquote] at htrim
    intro first read last hr hname
    exact htrim.trans (Expression.readString_passes (.inl rfl) rest first read last hr)
  · next rest hquote =>
    rw [hquote] at htrim
    intro first read last hr hname
    exact htrim.trans (Expression.readString_passes (.inr rfl) rest first read last hr)
  · have happend := Expression.takeToken_append false (Text.trimStart cs)
    generalize Expression.takeToken false (Text.trimStart cs) = cut at happend
    obtain ⟨name, rest⟩ := cut
    refine .pure fun hname => htrim.trans ?_
    rw [← happend]
    rw [String.toList_ofList] at hname
    exact .of_closes hname rest

theorem readPartial_closes (cs : List Char) :
    Yields (readPartial cs) fun tag => WordsClose tag.words → ClosesQuotes cs := by
  rw [readPartial]
  refine (readPartialName_passes cs).bind fun ⟨name, rest⟩ hname => ?_
  dsimp only
  split
  · exact .halt
  · refine (Expression.passes_readSteps.yields_readArguments _ _ _).bind
      fun ⟨params, hash, rest'⟩ harguments => ?_
    dsimp only
    split
    · refine .pure fun hwords => ?_
      obtain ⟨hfirst, hmore⟩ := List.forall_mem_cons.1 hwords
      exact ((hname hfirst).trans (harguments hmore)).closes
    · exact .halt

theorem closesQuotes_cons {c : Char} {cs : List Char} (hdouble : c ≠ '"') (hsingle : c ≠ '\'')
    (h : ClosesQuotes cs) : ClosesQuotes (c :: cs) := by
  have hc : ClosesQuotes [c] := by
    refine closesQuotes_of_forall fun d hd => ?_
    rw [List.mem_singleton.1 hd]
    exact ⟨hdouble, hsingle⟩
  exact hc.append h

theorem readTrimmed_closes (cs : List Char) :
    Yields (readTrimmed cs) fun tag => WordsClose tag.words → ClosesQuotes cs := by
  rw [readTrimmed.eq_def]
  split
  · exact .halt
  · next rest =>
    split
    · exact .halt
    · exact .halt
    · refine (readBlockHead_closes _).bind fun head hhead => .pure fun hwords => ?_
      exact closesQuotes_cons (by decide) (by decide) (hhead hwords)
  · next rest =>
    dsimp only
    split
    · exact .halt
    · refine .pure fun hwords => ?_
      have hname := hwords _ List.mem_cons_self
      rw [String.toList_ofList] at hname
      exact closesQuotes_cons (by decide) (by decide) (closesQuotes_of_trim hname)
  · next rest =>
    intro first tag last hr hwords
    exact closesQuotes_cons (by decide) (by decide)
      (readPartial_closes rest first tag last hr hwords)
  · next rest =>
    split
    · next hempty =>
      refine .pure fun _ => closesQuotes_cons (by decide) (by decide) (closesQuotes_of_trim ?_)
      rw [List.isEmpty_iff.1 hempty]
      rfl
    · exact .halt
  · next rest =>
    intro first tag last hr hwords
    exact closesQuotes_cons (by decide) (by decide)
      (readMustache_closes true rest first tag last hr hwords)
  · split
    · next heq => exact .pure fun _ => heq ▸ by decide
    · split
      · next rest hlead =>
        refine (readBlockHead_closes _).bind fun head hhead => .pure fun hwords => ?_
        rw [Text.afterLead?_eq_some_iff.1 hlead]
        have helse : ClosesQuotes "else ".toList := by decide
        exact helse.append (hhead hwords)
      · exact readMustache_closes false cs

/-- The inside of a tag closes its quotes if the words of the tag do. Long comments have ends of
their own. -/
theorem closesQuotes_of_read {content : List Char} {offset next last : Nat} {tag : Tag}
    (h : Tag.read content false offset next = (.ok tag, last))
    (hcomment : ¬ ['!', '-', '-'] <+: content) (hwords : WordsClose tag.words) :
    ClosesQuotes content := by
  rw [Tag.read.eq_def] at h
  split at h
  · next rest =>
    cases h
    have hvalue := hwords _ List.mem_cons_self
    rw [String.toList_ofList] at hvalue
    have htext : commentText rest = rest := by
      rw [commentText.eq_def]
      split
      · next dashed => exact absurd (List.prefix_append ['!', '-', '-'] dashed) hcomment
      · rfl
    rw [htext] at hvalue
    exact closesQuotes_cons (by decide) (by decide) hvalue
  · dsimp only at h
    split at h
    · next hrun =>
      cases h
      rw [if_neg Bool.false_ne_true] at hrun
      exact closesQuotes_of_trim (readTrimmed_closes _ _ _ _ hrun hwords)
    · cases h

end Tag

/-! ### Cutting a tag out -/

namespace Span

def braced (content rest : List Char) : List Char :=
  '{' :: '{' :: (content ++ '}' :: '}' :: rest)

/-- The inside of a tag as it was written between two braces. -/
def ofBraced (content rest : List Char) : Span :=
  { content, trusting := false, stripLeft := false, stripRight := false, lead := 2, rest }

/-- Content that does not hold two closing braces, touches its own with neither a brace nor a tilde,
and is no long comment. -/
structure IsApart (content : List Char) : Prop where
  braces : Text.contains ['}', '}'] content = false
  head : ∀ c ∈ content.head?, c ≠ '{' ∧ c ≠ '~'
  last : ∀ c ∈ content.getLast?, c ≠ '~' ∧ c ≠ '}'
  comment : ¬ ['!', '-', '-'] <+: content

theorem trailingTilde_of_ne {cs : List Char} (h : ∀ c ∈ cs.getLast?, c ≠ '~') :
    trailingTilde cs = (false, cs) := by
  rw [trailingTilde.eq_def]
  split
  · next before hreverse =>
    have hlast : cs.getLast? = some '~' := by
      rw [List.getLast?_eq_head?_reverse, hreverse]
      rfl
    exact absurd rfl (h '~' hlast)
  · rfl

theorem eq_of_trailingTilde {cs ds : List Char} (h : trailingTilde cs = (false, ds)) :
    ds = cs := by
  rw [trailingTilde.eq_def] at h
  split at h
  · cases h
  · cases h
    rfl

theorem leadingTilde_of_ne {cs : List Char} (h : ∀ c ∈ cs.head?, c ≠ '~') :
    leadingTilde cs = (false, cs) := by
  rw [leadingTilde.eq_def]
  split
  · exact absurd rfl (h '~' rfl)
  · rfl

theorem afterLead?_comment_eq_none {content : List Char} (h : ¬ ['!', '-', '-'] <+: content)
    (stop : Char) (hstop : stop ∉ ['!', '-', '-']) (rest : List Char) :
    Text.afterLead? ['!', '-', '-'] (content ++ stop :: rest) = none := by
  rw [Option.eq_none_iff_forall_ne_some]
  intro after hafter
  have hsource := Text.afterLead?_eq_some_iff.1 hafter
  rcases List.append_eq_append_iff.1 hsource with ⟨more, hlead, hmore⟩ | ⟨more, hcontent, -⟩
  · cases more with
    | nil => exact h ⟨[], by rw [hlead]; simp⟩
    | cons d more =>
      have hd : d ∈ ['!', '-', '-'] := hlead ▸ List.mem_append_right content List.mem_cons_self
      rw [← (List.cons.inj hmore).1] at hd
      exact hstop hd
  · exact h ⟨more, hcontent.symm⟩

theorem read_braced {content : List Char} (hhead : ∀ c ∈ content.head?, c ≠ '{' ∧ c ≠ '~')
    (hcomment : ¬ ['!', '-', '-'] <+: content) (rest : List Char) :
    Span.read (braced content rest) =
      match cutAtClose? ['}', '}'] .outside (content ++ '}' :: '}' :: rest) with
      | some (content, rest) =>
        .ok { content := (trailingTilde content).2, trusting := false, stripLeft := false
              stripRight := (trailingTilde content).1, lead := 2, rest }
      | none => .error .unterminatedMustache := by
  have hlead := afterLead?_comment_eq_none hcomment '}' (by decide) ('}' :: rest)
  have hbody : ∀ c ∈ (content ++ '}' :: '}' :: rest).head?, c ≠ '{' ∧ c ≠ '~' := by
    cases content with
    | nil =>
      rintro c ⟨⟩
      decide
    | cons d ds => exact hhead
  rw [braced]
  generalize content ++ '}' :: '}' :: rest = body at hbody hlead ⊢
  have hthird : Text.startsWith ['{', '{', '{'] ('{' :: '{' :: body) = false := by
    cases body with
    | nil => rfl
    | cons c cs => simp [Text.startsWith, Text.afterLead?, Ne.symm (hbody c rfl).1]
  have htilde := leadingTilde_of_ne fun c hc => (hbody c hc).2
  rw [Span.read, hthird]
  simp only [Bool.false_eq_true, if_false, List.drop_succ_cons, List.drop_zero, htilde, hlead,
    Nat.add_zero]
  rfl

theorem read_braced_eq_iff {content : List Char} (hcontent : IsApart content) (rest : List Char) :
    Span.read (braced content rest) = .ok (ofBraced content rest) ↔ ClosesQuotes content := by
  have hclose := Text.contains_braces_append hcontent.braces fun c hc => (hcontent.last c hc).2
  rw [← cutAtClose?_braces_iff hclose rest, read_braced hcontent.head hcontent.comment]
  constructor
  · intro hspan
    split at hspan
    · next content' rest' hcut =>
      obtain ⟨hsame, -, -, hright, -, hrest⟩ := Span.mk.inj (Except.ok.inj hspan)
      have hpair : trailingTilde content' = (false, content) := Prod.ext hright hsame
      rw [hcut, eq_of_trailingTilde hpair]
      exact congrArg some (Prod.ext rfl hrest)
    · cases hspan
  · intro hcut
    rw [hcut]
    dsimp only
    rw [trailingTilde_of_ne fun c hc => (hcontent.last c hc).1]
    rfl

/-- Two braces end a tag that does not hold them exactly if the quotes in it are closed, whatever
reads the tag. They are in every tag whose words close their quotes. -/
theorem read_braced_iff {content rest : List Char} {offset next last : Nat} {tag : Tag}
    (hcontent : IsApart content)
    (hread : Tag.read content false offset next = (.ok tag, last)) :
    (Span.read (braced content rest) = .ok (ofBraced content rest) ↔ ClosesQuotes content) ∧
      (WordsClose tag.words → Span.read (braced content rest) = .ok (ofBraced content rest)) := by
  have hiff := read_braced_eq_iff hcontent rest
  exact ⟨hiff, fun hwords => hiff.2 (Tag.closesQuotes_of_read hread hcontent.comment hwords)⟩

/-- A call whose only argument holds an apostrophe and a brace, in quotes. -/
def linkTag : Tag :=
  .expression
    { callee := .path
        { id := 0, spelling := "link", parts := ["link"], data := false, depth := 0 }
      params := [.literal (.string "it's \x7d")], hash := [], trusting := false }

theorem linkTag_ends_at_braces :
    IsApart "link \"it's \x7d\"".toList ∧
      Tag.read "link \"it's \x7d\"".toList false 2 0 = (.ok linkTag, 1) ∧
        WordsClose linkTag.words ∧
          Span.read (braced "link \"it's \x7d\"".toList "it's".toList) =
            .ok (ofBraced "link \"it's \x7d\"".toList "it's".toList) := by
  have hcontent : IsApart "link \"it's \x7d\"".toList :=
    ⟨by decide, by decide, by decide, by decide⟩
  have hread : Tag.read "link \"it's \x7d\"".toList false 2 0 = (.ok linkTag, 1) := rfl
  have hwords : WordsClose linkTag.words := by
    intro word hword
    cases List.mem_singleton.1 hword
    decide
  exact ⟨hcontent, hread, hwords, (read_braced_iff hcontent hread).2 hwords⟩

/-- An apostrophe in a comment is no quote to the reader of tags, and hides the end of the comment
from the reader of spans. -/
theorem apostrophe_hides_braces :
    IsApart "! don't".toList ∧
      Tag.read "! don't".toList false 2 0 = (.ok (.comment " don't"), 0) ∧
        Span.read (braced "! don't".toList []) = .error .unterminatedMustache :=
  ⟨⟨by decide, by decide, by decide, by decide⟩, rfl, by decide⟩

end Span

end MustacheJsx

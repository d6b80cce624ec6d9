import HtmlTemplate.Proofs.Calls
import HtmlTemplate.Proofs.Advances
import HtmlTemplate.Proofs.Untrimmed

/-! From a point between tags to the end of a body: the text that is ahead, the tokens and
statements it is read as and where they lead. -/

namespace HtmlTemplate.Draft

open Mustache
open Text (isBlank)
open HtmlTemplate.Tree (Assembly)

structure Plain (cs : List Char) : Prop where
  content : isContent cs
  starts : '\n' ∉ cs.takeWhile isBlank
  ends : '\n' ∉ cs.reverse.takeWhile isBlank

private theorem not_mem_takeWhile_append {c : Char} {f : Char → Bool} {cs ds : List Char}
    (hcs : c ∉ cs.takeWhile f) (hds : c ∉ ds.takeWhile f) : c ∉ (cs ++ ds).takeWhile f := by
  induction cs with
  | nil => exact hds
  | cons d cs ih =>
    rw [List.cons_append]
    by_cases hd : f d = true
    · rw [List.takeWhile_cons_of_pos hd, List.mem_cons, not_or] at hcs ⊢
      exact ⟨hcs.1, ih hcs.2⟩
    · rw [List.takeWhile_cons_of_neg hd]
      simp

theorem plain_nil : Plain [] := ⟨⟨by simp, by simp⟩, by simp, by simp⟩

theorem Plain.append {cs ds : List Char} (h : Plain cs) (h' : Plain ds) : Plain (cs ++ ds) := by
  refine ⟨⟨?_, ?_⟩, not_mem_takeWhile_append h.starts h'.starts, ?_⟩
  · rw [List.mem_append, not_or]
    exact ⟨h.content.1, h'.content.1⟩
  · cases ds with
    | nil =>
      rw [List.append_nil]
      exact h.content.2
    | cons d ds =>
      rw [List.getLast?_append_of_ne_nil _ (List.cons_ne_nil d ds)]
      exact h'.content.2
  · rw [List.reverse_append]
    exact not_mem_takeWhile_append h'.ends h.ends

theorem plain_text {cs : List Char} (h : cs.all isTextChar = true) : Plain cs := by
  have hchars : ∀ c ∈ cs, c ≠ '{' ∧ c ≠ '\\' ∧ c ≠ '\n' := by
    intro c hc
    have := List.all_eq_true.mp h c hc
    simp only [isTextChar, Bool.and_eq_true, bne_iff_ne] at this
    exact ⟨this.1.1.2, this.1.2, this.2⟩
  refine ⟨⟨fun hmem => (hchars _ hmem).1 rfl, fun hlast => ?_⟩, fun hmem => ?_, fun hmem => ?_⟩
  · exact (hchars _ (List.mem_of_getLast? hlast)).2.1 rfl
  · exact (hchars _ ((List.takeWhile_prefix _).subset hmem)).2.2 rfl
  · exact (hchars _ (List.mem_reverse.mp ((List.takeWhile_prefix _).subset hmem))).2.2 rfl

theorem plain_tag {cs : List Char} (h : '{' ∉ cs) : Plain ('<' :: cs ++ ['>']) := by
  refine ⟨⟨?_, ?_⟩, ?_, ?_⟩
  · simpa using h
  · rw [List.getLast?_append_of_ne_nil _ (List.cons_ne_nil '>' [])]
    decide
  · rw [List.cons_append, List.takeWhile_cons_of_neg (by decide)]
    simp
  · rw [List.reverse_append, List.reverse_singleton, List.singleton_append,
      List.takeWhile_cons_of_neg (by decide)]
    simp

/-- The token of a text between mustaches, if there is any. -/
def contentTokens (p : Position) (chunk : List Char) : List Token :=
  if chunk = [] then [] else [tokenAt p chunk (.content chunk)]

/-- The statement of such a text. -/
def contents (p : Position) (chunk : List Char) : List Mustache.Statement :=
  if chunk = [] then [] else [.content (Assembly.contentAt p chunk)]

theorem contentTokens_of_ne {p : Position} {chunk : List Char} (h : chunk ≠ []) :
    contentTokens p chunk = [tokenAt p chunk (.content chunk)] :=
  if_neg h

theorem contents_of_ne {p : Position} {chunk : List Char} (h : chunk ≠ []) :
    contents p chunk = [.content (Assembly.contentAt p chunk)] :=
  if_neg h

theorem none_give {next : List Token} (h : endsBody next = true) :
    GivesAny (Mustache.statements next) [] next :=
  statements_gives_iff.mpr (.nil h)

theorem contents_give {p : Position} {chunk : List Char} {ts next : List Token}
    {ss : List Mustache.Statement} (h : GivesAny (Mustache.statements ts) ss next) :
    GivesAny (Mustache.statements (contentTokens p chunk ++ ts)) (contents p chunk ++ ss) next := by
  by_cases hchunk : chunk = []
  · subst hchunk
    exact h
  · rw [contentTokens_of_ne hchunk, contents_of_ne hchunk]
    exact statements_gives_iff.mpr (.cons rfl (.content rfl) (statements_gives_iff.mp h))

/-- The end of the input. -/
def endToken (p : Position) : Token :=
  { symbol := .endOfInput, loc := ⟨p, p⟩ }

/-- A text is parsed as the statements that its tokens are read as, if whitespace control leaves
them as they are. -/
theorem parse_of_scan {text : List Char} {ts : List Token} {p : Position}
    {ss : List Mustache.Statement} {keepLines : Bool}
    (hscan : scan text = .ok (ts ++ [endToken p]))
    (hgives : GivesAny (Mustache.statements (ts ++ [endToken p])) ss [endToken p])
    (hcontrol : Program.control keepLines { body := ss } = { body := ss }) :
    Mustache.parse text keepLines = .ok { body := ss } := by
  obtain ⟨hlength, hgives⟩ := hgives
  unfold Mustache.parse parseWritten
  rw [hscan]
  simp only [bind, Except.bind, Program.ofTokens]
  rw [hgives]
  simp only [peek, List.head?_cons, Option.getD_some, pure, Except.pure, endToken]
  rw [hcontrol]

theorem parse_lone {text : List Char} {ts : List Token} {p : Position} {s : Mustache.Statement}
    {keepLines : Bool} (hscan : scan text = .ok (ts ++ [endToken p]))
    (hbody : endsBody (ts ++ [endToken p]) = false)
    (hgives : Gives (Mustache.statement (ts ++ [endToken p])) s [endToken p])
    (hcontrol : Program.control keepLines { body := [s] } = { body := [s] }) :
    Mustache.parse text keepLines = .ok { body := [s] } := by
  refine parse_of_scan hscan ?_ hcontrol
  exact statements_gives_iff.mpr (.cons hbody (statement_gives_iff.mp hgives) (.nil rfl))

/-- The text ahead is some HTML, which may be none, and what comes from the next mustache
on. It is read as statements that lead from one point to another. -/
structure Ahead (src : Source) (p : Position) (a : Assembly) (text after : List Char)
    (b : Assembly) (chunk more : List Char) (ts : List Token) (ss : List Mustache.Statement) :
    Prop where
  parts : text = chunk ++ more
  plain : Plain chunk
  breaks : Breaks (more ++ after)
  scans : Scans .text (p.after chunk) more ts .text after
  gives : ∀ next, endsBody next = true → GivesAny (Mustache.statements (ts ++ next)) ss next
  untrimmed : allUntrimmed ss
  leads : Assembly.statements src a (contents p chunk ++ ss) = .ok b
  empty : contents p chunk ++ ss = [] ↔ text = []
  first : ∀ s ∈ (contents p chunk ++ ss).head?, s.loc.start = p
  last : ∀ s ∈ (contents p chunk ++ ss).getLast?, s.loc.stop = p.after text

def Leads (src : Source) (p : Position) (a : Assembly) (text after : List Char) (b : Assembly) :
    Prop :=
  ∃ chunk more ts ss, Ahead src p a text after b chunk more ts ss

variable {src : Source} {p : Position} {a a' b : Assembly} {text after piece chunk more : List Char}
  {ts : List Token} {ss : List Mustache.Statement}

theorem leads_nil (hbreaks : Breaks after) : Leads src p a [] after a := by
  refine ⟨[], [], [], [], rfl, plain_nil, hbreaks, Scans.nil _ _ _, fun next hnext => ?_, trivial,
    rfl, by simp [contents], by simp [contents], by simp [contents]⟩
  exact none_give hnext

theorem Ahead.scansAll (h : Ahead src p a text after b chunk more ts ss) :
    Scans .text p text (contentTokens p chunk ++ ts) .text after := by
  rw [h.parts]
  by_cases hchunk : chunk = []
  · have hscans := h.scans
    subst hchunk
    exact hscans
  · rw [contentTokens_of_ne hchunk]
    exact (scans_content hchunk h.plain.content h.breaks).append h.scans

theorem Ahead.givesAll (h : Ahead src p a text after b chunk more ts ss) {next : List Token}
    (hnext : endsBody next = true) :
    GivesAny (Mustache.statements (contentTokens p chunk ++ ts ++ next)) (contents p chunk ++ ss)
      next := by
  rw [List.append_assoc]
  exact contents_give (h.gives next hnext)

theorem Ahead.untrimmedAll (h : Ahead src p a text after b chunk more ts ss) :
    allUntrimmed (contents p chunk ++ ss) := by
  by_cases hchunk : chunk = []
  · subst hchunk
    exact h.untrimmed
  · rw [contents_of_ne hchunk]
    refine ⟨⟨?_, ?_⟩, h.untrimmed⟩
    · show (chunk.takeWhile isBlank).contains '\n' = false
      simpa using h.plain.starts
    · show (chunk.reverse.takeWhile isBlank).reverse.contains '\n' = false
      simpa using h.plain.ends

theorem Ahead.content (h : Ahead src (p.after piece) a' text after b chunk more ts ss)
    (hpiece : piece ≠ []) (ha' : a'.Ready) {delimited : Bool}
    (hadvances : Assembly.Advances src p a piece delimited a')
    (hchunk : delimited = true → chunk.head?.all (· == '<') = true) :
    Assembly.statements src a (contents p (piece ++ chunk) ++ ss) = .ok b := by
  have hne : piece ++ chunk ≠ [] := by simp [hpiece]
  have hread : Assembly.statement src a (.content (Assembly.contentAt p (piece ++ chunk)))
      = a'.read src chunk := by
    rw [Assembly.statement, Assembly.content_eq a hne]
    exact hadvances.read chunk hchunk
  have hleads := h.leads
  rw [contents_of_ne hne, List.singleton_append, Assembly.statements, hread]
  by_cases hempty : chunk = []
  · subst hempty
    rw [ha'.read_nil]
    exact hleads
  · rw [contents_of_ne hempty, List.singleton_append, Assembly.statements, Assembly.statement,
      Assembly.content_eq a' hempty] at hleads
    have hmove : a'.moveTo (p.after piece) = a' := by
      obtain ⟨⟨mode, state, q, l, n⟩, markup⟩ := a'
      obtain rfl : q = p.after piece := hadvances.position
      rfl
    rw [hmove] at hleads
    exact hleads

def Delimits (text : List Char) : Prop :=
  text.head?.all (fun c => c == '<' || c == '{') = true

theorem Leads.html (h : Leads src (p.after piece) a' text after b) (hpiece : piece ≠ [])
    (hplain : Plain piece) (ha' : a'.Ready) {delimited : Bool}
    (hadvances : Assembly.Advances src p a piece delimited a')
    (htext : delimited = true → Delimits text) : Leads src p a (piece ++ text) after b := by
  obtain ⟨chunk, more, ts, ss, h⟩ := h
  have hne : piece ++ chunk ≠ [] := by simp [hpiece]
  have hchunk : delimited = true → chunk.head?.all (· == '<') = true := by
    intro hdelimited
    have hdelimits := htext hdelimited
    cases chunk with
    | nil => rfl
    | cons c chunk =>
      have hbrace : c ≠ '{' := fun heq => h.plain.content.1 (heq ▸ List.mem_cons_self)
      rw [h.parts] at hdelimits
      simpa [Delimits, hbrace] using hdelimits
  refine ⟨piece ++ chunk, more, ts, ss, ?_, hplain.append h.plain, h.breaks, ?_, h.gives,
    h.untrimmed, h.content hpiece ha' hadvances hchunk, ?_, ?_, ?_⟩
  · rw [h.parts, List.append_assoc]
  · rw [Position.after_append]
    exact h.scans
  · rw [contents_of_ne hne]
    simp [hpiece]
  · rw [contents_of_ne hne]
    rintro s hs
    cases hs
    rfl
  · rw [contents_of_ne hne, List.singleton_append]
    intro s hs
    cases ss with
    | nil =>
      cases hs
      show p.after (piece ++ chunk) = p.after (piece ++ text)
      rw [Position.after_append, Position.after_append]
      by_cases hempty : chunk = []
      · subst hempty
        rw [h.empty.mp rfl]
      · exact h.last (.content (Assembly.contentAt (p.after piece) chunk))
          (by rw [contents_of_ne hempty]; rfl)
    | cons s' ss =>
      rw [List.getLast?_cons_cons] at hs
      rw [Position.after_append]
      refine h.last s ?_
      rw [List.getLast?_append_of_ne_nil _ (List.cons_ne_nil _ _)]
      exact hs

/-- A mustache is read as a statement that leads from one point to another. -/
structure StatementReads (src : Source) (p : Position) (a : Assembly) (text rest : List Char)
    (a' : Assembly) (ts : List Token) (s : Mustache.Statement) : Prop where
  opens : ∀ more, opens (text ++ more) = true
  scans : Scans .text p text ts .text rest
  gives : ∀ next, Gives (Mustache.statement (ts ++ next)) s next
  goesOn : ∀ next, endsBody (ts ++ next) = false
  untrimmed : s.Untrimmed
  loc : s.loc = ⟨p, p.after text⟩
  leads : Assembly.statement src a s = .ok a'

theorem Leads.statement {s : Mustache.Statement} {tsS : List Token}
    (h : Leads src (p.after piece) a' text after b)
    (hs : StatementReads src p a piece (text ++ after) a' tsS s) :
    Leads src p a (piece ++ text) after b := by
  obtain ⟨chunk, more, ts, ss, h⟩ := h
  have hne : piece ≠ [] := by
    rintro rfl
    exact absurd (hs.opens []) (by decide)
  refine ⟨[], piece ++ text, tsS ++ (contentTokens (p.after piece) chunk ++ ts),
    s :: (contents (p.after piece) chunk ++ ss), rfl, plain_nil, .inr ?_,
    hs.scans.append h.scansAll, fun next hnext => ?_, ⟨hs.untrimmed, h.untrimmedAll⟩,
    ?_, ?_, ?_, ?_⟩
  · rw [List.append_assoc]
    exact hs.opens _
  · rw [List.append_assoc]
    exact statements_gives_iff.mpr (.cons (hs.goesOn _) (statement_gives_iff.mp (hs.gives _))
      (statements_gives_iff.mp (h.givesAll hnext)))
  · show Assembly.statements src a (s :: _) = _
    rw [Assembly.statements, hs.leads]
    exact h.leads
  · simp [contents, hne]
  · intro s' hs'
    cases hs'
    rw [hs.loc]
  · intro s' hs'
    rw [contents, if_pos rfl, List.nil_append] at hs'
    cases hrest : contents (p.after piece) chunk ++ ss with
    | nil =>
      rw [hrest] at hs'
      obtain rfl : s = s' := by simpa using hs'
      rw [hs.loc, h.empty.mp hrest, List.append_nil]
    | cons next rest =>
      rw [hrest, List.getLast?_cons_cons, ← hrest] at hs'
      rw [Position.after_append]
      exact h.last s' hs'

end HtmlTemplate.Draft

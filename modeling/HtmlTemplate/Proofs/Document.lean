import HtmlTemplate.Proofs.Consumes
import HtmlTemplate.Proofs.Outlook
import HtmlTemplate.Proofs.Structure

/-! Templates without mustaches. Their text is one text between mustaches, and it is a template
if and only if its tags are balanced. -/

namespace HtmlTemplate

open Html (Event Tokenizer)

namespace Mustache

open Draft (contents contentTokens contents_give endToken none_give parse_of_scan)

def Unbraced (text : List Char) : Prop :=
  ¬ ['{', '{'] <:+: text

variable {text : List Char}

theorem Unbraced.tail {c : Char} (h : Unbraced (c :: text)) : Unbraced text :=
  fun hbraces => h (hbraces.trans (List.suffix_cons c text).isInfix)

theorem Unbraced.front (h : Unbraced text) {cs : List Char} (hcs : ['{', '{'] <:+: cs) :
    cs.isPrefixOf text = false := by
  refine Bool.eq_false_iff.mpr fun hfront => ?_
  have hfront : cs <+: text := List.isPrefixOf_iff_prefix.mp hfront
  exact h (hcs.trans hfront.isInfix)

theorem Unbraced.opens (h : Unbraced text) : opens text = false :=
  h.front (List.infix_refl _)

theorem Unbraced.escapes (h : Unbraced text) : escapes text = false :=
  h.front ⟨['\\'], [], rfl⟩

theorem Unbraced.escapesBackslash (h : Unbraced text) : escapesBackslash text = false :=
  h.front ⟨['\\', '\\'], [], rfl⟩

theorem Unbraced.contentText (h : Unbraced text) : contentText text = (text, text.length) := by
  induction text with
  | nil => rfl
  | cons c cs ih =>
    rw [Mustache.contentText, h.opens, h.escapes, h.escapesBackslash, ih h.tail]
    rfl

theorem Unbraced.scan (h : Unbraced text) :
    scan text = .ok (contentTokens .first text ++ [endToken (.after .first text)]) := by
  by_cases hne : text = []
  · subst hne
    rfl
  · have hlead : leadLength .text (text ++ []) = 0 := by
      rw [List.append_nil, leadLength, h.escapes]
      rfl
    have hlexeme : lexeme .text (text ++ [])
        = .ok { symbol := .content text, length := text.length, after := .text } := by
      rw [List.append_nil, lexeme, h.opens, h.escapes, contentLexeme, h.contentText]
      rfl
    have hscans := Scans.one (p := .first) hne hlead hlexeme rfl
    rw [Scans, List.append_nil] at hscans
    rw [Draft.contentTokens_of_ne hne]
    exact hscans

theorem Unbraced.parse (h : Unbraced text) (keepLines : Bool) :
    parse text keepLines = .ok { body := contents .first text } := by
  rw [← List.append_nil (contents .first text)]
  refine parse_of_scan h.scan (contents_give (none_give rfl)) ?_
  by_cases hne : text = []
  · subst hne
    rfl
  · rw [Draft.contents_of_ne hne]
    rfl

end Mustache

namespace Html.Tokenizer

def reports (t : Tokenizer) (text : List Char) : List Event :=
  ((t.feed text).1 ++ (t.feed text).2.finishData.1).map (·.event)

theorem faultless_document (mode : Html.Mode) (text : List Char) :
    Faultless ((({ mode } : Tokenizer).document text).1.map (·.event))
      ↔ Faultless (({ mode } : Tokenizer).reports text) :=
  faultless_reset

theorem finish_finishData (t : Tokenizer) : t.finishData.2.finish = ([], t.finishData.2) := by
  unfold finish finishData
  split <;> rfl

theorem isData_finishData (t : Tokenizer) :
    t.finishData.2.state.isData = true ↔ t.finishData.2.state = .beforeData := by
  have hne := state_finishData t
  revert hne
  cases t.finishData.2.state <;> simp [State.isData]

theorem reports_move (t : Tokenizer) (text : List Char) :
    ∃ k, Moves (t.construct .start) t.position (t.reports text)
      ((t.feed text).2.finishData.2.construct k) (t.feed text).2.finishData.2.position := by
  obtain ⟨k, hfeed⟩ := t.feed_moves .start text
  have hfinish := (t.feed text).2.finishData_moves k
  refine ⟨k, ?_⟩
  rw [reports, List.map_append]
  exact hfeed.trans hfinish

end Html.Tokenizer

namespace Tree

open Draft (contents)

namespace Assembly

variable {src : Source} {text : List Char} {mode : Html.Mode}

theorem read_eq (src : Source) (a : Assembly) (text : List Char) :
    a.read src text = (a.tokenizer.reports text).foldlM (Markup.receive src) a.markup >>=
      fun m => .ok ⟨(a.tokenizer.feed text).2.finishData.2, m⟩ := by
  rw [Tokenizer.reports, List.map_append, List.foldlM_append, bind_assoc]
  unfold read
  rw [follow_eq, bind_assoc]
  exact congrArg _ (funext fun m => follow_eq src ⟨_, m⟩ _ _)

theorem statements_contents (src : Source) (mode : Html.Mode) (text : List Char) :
    statements src (initial mode) (contents .first text) = (initial mode).read src text := by
  by_cases hne : text = []
  · subst hne
    rfl
  · rw [Draft.contents_of_ne hne, statements, statement, content_eq _ hne]
    simp only [statements]
    exact bind_pure _

end Assembly

theorem Markup.finish_eq_ok {src : Source} {m : Markup} {state : Html.State} {whole : Whole}
    {stop : Nat} {u : Unit} :
    m.finish src state whole stop = .ok u ↔ state.isData = true := by
  unfold finish
  split
  · simp [*]
  · simp [*, fault]

theorem assemble_contents_eq (src : Source) (mode : Html.Mode) (locals : List (List Char))
    (text : List Char) :
    assemble src mode locals { body := contents .first text }
      = (({ mode } : Tokenizer).reports text).foldlM (Markup.receive src)
          (Assembly.initial mode).markup >>= fun m =>
        m.finish src (({ mode } : Tokenizer).feed text).2.finishData.2.state .template src.size
          >>= fun _ => m.stack.popExpecting src 0
          >>= fun (frame, _) => .ok ⟨frame.children, locals, src.fullSpan⟩ := by
  have hfinish (tokenizer : Tokenizer) (m : Markup) :
      Assembly.follow src ⟨tokenizer.finishData.2, m⟩ tokenizer.finishData.2.finish
        = .ok ⟨tokenizer.finishData.2, m⟩ := by
    rw [Tokenizer.finish_finishData]
    rfl
  unfold assemble
  show (Assembly.statements src (Assembly.initial mode) _ >>= _) = _
  rw [Assembly.statements_contents, Assembly.read_eq, bind_assoc]
  refine congrArg _ (funext fun m => ?_)
  show (Assembly.follow src ⟨_, m⟩ _ >>= _) = _
  rw [hfinish]
  refine congrArg (m.finish src _ .template src.size >>= ·) (funext fun _ => ?_)
  show (m.stack.popExpecting src 0 >>= _) >>= _ = _
  rw [bind_assoc]
  rfl

theorem assemble_contents {src : Source} {mode : Html.Mode} {locals : List (List Char)}
    {text : List Char} {t : Template} :
    assemble src mode locals { body := contents .first text } = .ok t
      ↔ ∃ m, (({ mode } : Tokenizer).reports text).foldlM (Markup.receive src)
            (Assembly.initial mode).markup = .ok m
          ∧ (({ mode } : Tokenizer).feed text).2.finishData.2.state = .beforeData
          ∧ ∃ frame stack, m.stack.popExpecting src 0 = .ok (frame, stack)
            ∧ t = ⟨frame.children, locals, src.fullSpan⟩ := by
  rw [assemble_contents_eq, ← Tokenizer.isData_finishData, bind_eq_ok]
  refine exists_congr fun m => and_congr_right fun _ => ?_
  simp only [bind_eq_ok, Markup.finish_eq_ok, exists_const, Prod.exists, Except.ok.injEq,
    eq_comm (b := t)]

section
variable {src : Source} {mode : Html.Mode} {text : List Char}

private theorem mirrors_initial (mode : Html.Mode) :
    Mirrors .none {} (Assembly.initial mode).markup where
  underway := .none
  current := rfl
  pending := rfl
  stacked := ⟨.body, Nat.one_ne_zero, by simp, rfl, rfl⟩

theorem follows_reports (src : Source)
    (hes : Html.Faultless (({ mode } : Tokenizer).reports text)) :
    ∃ k, Follows ((({ mode } : Tokenizer).feed text).2.finishData.2.construct k)
      ((({ mode } : Tokenizer).reports text).foldl Html.Scribe.record {})
      ((({ mode } : Tokenizer).reports text).foldlM (Markup.receive src)
        (Assembly.initial mode).markup) := by
  obtain ⟨k, hmoves⟩ := ({ mode } : Tokenizer).reports_move text
  exact ⟨k, follows_of_moves hmoves hes (mirrors_initial mode)⟩

theorem rooted_reports {m : Markup}
    (hm : (({ mode } : Tokenizer).reports text).foldlM (Markup.receive src)
      (Assembly.initial mode).markup = .ok m) : Rooted m.stack.frames := by
  obtain ⟨k, hfollows⟩ := follows_reports src (faultless_of_ok hm)
  rw [hm] at hfollows
  exact hfollows.stacked.rooted

theorem document_of_ok {m : Markup} {frame : Frame} {stack : OpenElements}
    (hm : (({ mode } : Tokenizer).reports text).foldlM (Markup.receive src)
      (Assembly.initial mode).markup = .ok m)
    (hpop : m.stack.popExpecting src 0 = .ok (frame, stack)) :
    Html.Faultless (({ mode } : Tokenizer).reports text)
      ∧ (∀ t ∈ Html.tokens (({ mode } : Tokenizer).reports text), Allowed t)
      ∧ Html.Balanced (Html.tokens (({ mode } : Tokenizer).reports text))
      ∧ (Html.tokens (({ mode } : Tokenizer).reports text)).mapM visit?
        = .ok (walkAll frame.children) := by
  have hes := faultless_of_ok hm
  obtain ⟨k, hfollows⟩ := follows_reports src hes
  rw [hm] at hfollows
  have hstacked : Stacked (Html.tokens (({ mode } : Tokenizer).reports text)) m.stack :=
    hfollows.stacked
  have hframes := hstacked.rooted.of_popExpecting hpop
  have hopened := hstacked.opened
  have hvisits := hstacked.visits
  rw [hframes] at hopened hvisits
  exact ⟨hes, hstacked.allowed, Html.balanced_iff.mpr hopened, hvisits⟩

theorem ok_of_document (src : Source)
    (hes : Html.Faultless (({ mode } : Tokenizer).reports text))
    (hstate : (({ mode } : Tokenizer).feed text).2.finishData.2.state = .beforeData)
    (hallowed : ∀ t ∈ Html.tokens (({ mode } : Tokenizer).reports text), Allowed t)
    (hbalanced : Html.Balanced (Html.tokens (({ mode } : Tokenizer).reports text))) :
    ∃ m frame stack, (({ mode } : Tokenizer).reports text).foldlM (Markup.receive src)
        (Assembly.initial mode).markup = .ok m
      ∧ m.stack.popExpecting src 0 = .ok (frame, stack) := by
  obtain ⟨k, hfollows⟩ := follows_reports src hes
  have hopened := Html.balanced_iff.mp hbalanced
  cases hm : (({ mode } : Tokenizer).reports text).foldlM (Markup.receive src)
      (Assembly.initial mode).markup with
  | error e =>
    rw [hm] at hfollows
    obtain hsound | ⟨hkind, -⟩ := hfollows
    · exact absurd ⟨hallowed, _, hopened⟩ hsound
    · simp [Tokenizer.construct, hstate, tagKind?] at hkind
  | ok m =>
    rw [hm] at hfollows
    have hstacked : Stacked (Html.tokens (({ mode } : Tokenizer).reports text)) m.stack :=
      hfollows.stacked
    have hnames : openNames m.stack.frames = [] :=
      Option.some.inj (hstacked.opened.symm.trans hopened)
    obtain ⟨children, hframes⟩ := hstacked.rooted.eq_body hnames
    refine ⟨m, .body children, { m.stack with frames := [] }, rfl, ?_⟩
    simp [OpenElements.popExpecting, hframes]

end

end Tree

/-- A text without mustaches is a template if and only if it is HTML without faults that ends
between tags, its end tags have nothing but names, its start tags open elements, and its tags are
balanced. A walk through the template then meets its tags, texts and comments in their order. -/
theorem preprocess_structure (text : List Char) (options : Options)
    (htext : ¬ ['{', '{'] <:+: text) :
    let run := ({ mode := options.mode } : Tokenizer).document text
    let events := run.1.map (·.event)
    let ts := Html.tokens events
    ((∃ t, preprocess text options = .ok t) ↔
      Html.Faultless events ∧ run.2.state = .beforeData
        ∧ (∀ t, .endTag t ∈ ts → t.attributes = [] ∧ t.selfClosing = false)
        ∧ (∀ t, .startTag t ∈ ts → t.name ≠ [':']
          ∧ ∃ split, Tree.blockParams? (t.attributes.map (·.1)) = .ok split)
        ∧ Html.Balanced ts)
      ∧ ∀ t, preprocess text options = .ok t →
        ts.mapM Tree.visit? = .ok (Tree.walkAll t.body) := by
  intro run events ts
  have hparse : preprocess text options = Tree.assemble ⟨text, options.moduleName⟩ options.mode
      options.locals { body := Draft.contents .first text } := by
    rw [preprocess, Mustache.Unbraced.parse htext]
  rw [hparse]
  refine ⟨⟨?_, ?_⟩, ?_⟩
  · rintro ⟨t, ht⟩
    obtain ⟨m, hm, hstate, frame, stack, hpop, -⟩ := Tree.assemble_contents.mp ht
    obtain ⟨hes, hallowed, hbalanced, -⟩ := Tree.document_of_ok hm hpop
    exact ⟨(Tokenizer.faultless_document _ _).mpr hes, hstate, fun t => hallowed (.endTag t),
      fun t => hallowed (.startTag t), hbalanced⟩
  · rintro ⟨hes, hstate, hends, hstarts, hbalanced⟩
    have hallowed : ∀ token ∈ ts, Tree.Allowed token
      | .endTag t, ht => hends t ht
      | .startTag t, ht => hstarts t ht
      | .text _, _ => trivial
      | .comment _, _ => trivial
    obtain ⟨m, frame, stack, hm, hpop⟩ := Tree.ok_of_document ⟨text, options.moduleName⟩
      ((Tokenizer.faultless_document _ _).mp hes) hstate hallowed hbalanced
    exact ⟨_, Tree.assemble_contents.mpr ⟨m, hm, hstate, frame, stack, hpop, rfl⟩⟩
  · intro t ht
    obtain ⟨m, hm, -, frame, stack, hpop, rfl⟩ := Tree.assemble_contents.mp ht
    exact (Tree.document_of_ok hm hpop).2.2.2

/-- An element with an attribute and a block parameter, in which there is a void one. -/
def paramsText : List Char :=
  ['<', 'p', ' ', 'a', '=', 'b', ' ', 'a', 's', ' ', '|', 'x', '|', '>', 'c', '<', 'b', 'r', '>',
    '<', '/', 'p', '>']

def paramsTokens : List Html.Token :=
  [.startTag
      { name := ['p']
        attributes := [(['a'], ['b']), (['a', 's'], []), (['|', 'x', '|'], [])] },
    .text ['c'], .startTag { name := ['b', 'r'] }, .endTag { name := ['p'] }]

theorem preprocess_structure_params :
    (¬ ['{', '{'] <:+: paramsText) ∧ ∃ t, preprocess paramsText {} = .ok t
      ∧ Tree.walkAll t.body
        = [.opens ['p'] [(['a'], some ['b'])] [['x']] false, .text ['c'],
          .opens ['b', 'r'] [] [] false, .closes ['p']] := by
  have hbraces : ¬ ['{', '{'] <:+: paramsText := by decide
  have htokens : Html.tokens ((({} : Tokenizer).document paramsText).1.map (·.event))
      = paramsTokens := by decide +kernel
  have hstarts : ∀ t, .startTag t ∈ paramsTokens →
      t.name ≠ [':'] ∧ ∃ split, Tree.blockParams? (t.attributes.map (·.1)) = .ok split := by
    intro t ht
    simp only [paramsTokens, List.mem_cons, Html.Token.startTag.injEq, List.not_mem_nil,
      reduceCtorEq, or_false, false_or] at ht
    obtain rfl | rfl := ht
    · exact ⟨by decide, _, rfl⟩
    · exact ⟨by decide, _, rfl⟩
  obtain ⟨hiff, hwalk⟩ := preprocess_structure paramsText {} hbraces
  rw [htokens] at hiff hwalk
  obtain ⟨t, ht⟩ := hiff.mpr ⟨by decide +kernel, by decide +kernel, by simp [paramsTokens], hstarts,
    by decide⟩
  exact ⟨hbraces, t, ht, (Except.ok.inj (hwalk t ht)).symm⟩

end HtmlTemplate

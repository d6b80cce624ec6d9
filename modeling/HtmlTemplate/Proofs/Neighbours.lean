import HtmlTemplate.Proofs.Alike
import HtmlTemplate.Proofs.Cuts

/-! Each text of a template stands between two of its tags, or at an end of the template, or next
to another text. What the tags do to it is told by which of its ends it loses. -/

namespace HtmlTemplate.Mustache

/-- Which of the texts next to a tag lose the end that faces it. The tokens of the tag are given
with those before and those after it. -/
abbrev Sides := List Token → List Token → List Token → Strip

/-- Whether the tokens before a text take its start. -/
inductive LosesStart (sides : Sides) (after : List Token) : List Token → Bool → Prop
  | first : LosesStart sides after [] false
  | text {before : List Token} {t : Token} {text : List Char} (h : t.symbol = .content text) :
    LosesStart sides after (before ++ [t]) false
  | tag {before tag : List Token} {symbol : Symbol} (h : IsTag symbol tag) :
    LosesStart sides after (before ++ tag) (sides before tag after).closing

/-- Whether the tokens after a text take its end. -/
inductive LosesEnd (sides : Sides) (before : List Token) : List Token → Bool → Prop
  | last {after : List Token} (h : (peek after).symbol = .endOfInput) :
    LosesEnd sides before after false
  | text {after : List Token} {t : Token} {text : List Char} (h : t.symbol = .content text) :
    LosesEnd sides before (t :: after) false
  | tag {after tag : List Token} {symbol : Symbol} (h : IsTag symbol tag) :
    LosesEnd sides before (tag ++ after) (sides before tag after).opening

def Content.Shown (t : Trim) (sides : Sides) (before toks after : List Token) (c : Content) :
    Prop :=
  ∃ pre token post lead trail, toks = pre ++ token :: post
    ∧ token.symbol = .content c.written ∧ token.loc = c.loc
    ∧ LosesStart sides (token :: (post ++ after)) (before ++ pre) lead
    ∧ LosesEnd sides (before ++ (pre ++ [token])) (post ++ after) trail
    ∧ c.value = t.cut lead trail c.written

theorem Content.Cut.shown {t : Trim} {sides : Sides} {before post after : List Token}
    {token : Token} {lead trail : Bool} {c c' : Content} (h : c.Cut t lead trail c')
    (hsymbol : token.symbol = .content c.written) (hloc : token.loc = c.loc)
    (hstart : LosesStart sides (token :: (post ++ after)) before lead)
    (hend : LosesEnd sides (before ++ [token]) (post ++ after) trail) :
    c'.Shown t sides before (token :: post) after := by
  refine ⟨[], token, post, lead, trail, rfl, ?_, ?_, ?_, hend, ?_⟩
  · rw [h.written, hsymbol]
  · rw [h.loc, hloc]
  · rwa [List.append_nil]
  · rw [h.written, h.value]

namespace Content.Shown

variable {t : Trim} {sides : Sides} {before toks after : List Token} {c : Content}

theorem prepend (pre : List Token) (h : c.Shown t sides (before ++ pre) toks after) :
    c.Shown t sides before (pre ++ toks) after := by
  obtain ⟨pre', token, post', lead, trail, rfl, hsymbol, hloc, hstart, hend, hvalue⟩ := h
  refine ⟨pre ++ pre', token, post', lead, trail, by simp, hsymbol, hloc, ?_, ?_, hvalue⟩
  · simpa only [List.append_assoc] using hstart
  · simpa only [List.append_assoc] using hend

theorem append (post : List Token) (h : c.Shown t sides before toks (post ++ after)) :
    c.Shown t sides before (toks ++ post) after := by
  obtain ⟨pre', token, post', lead, trail, rfl, hsymbol, hloc, hstart, hend, hvalue⟩ := h
  refine ⟨pre', token, post' ++ post, lead, trail, by simp, hsymbol, hloc, ?_, ?_, hvalue⟩
  · simpa only [List.append_assoc] using hstart
  · simpa only [List.append_assoc] using hend

end Content.Shown

theorem Spells.inverse_tag {ts : List Token} {strip : Strip} {closing : Option Strip}
    {p : Program Statement} (h : Spells ts (.inverse strip closing (some p))) :
    ∃ symbol tag after, ts = tag ++ after ∧ IsTag symbol tag ∧ strip = markers tag := by
  cases h with
  | elseSection closing hsymbol hbody =>
    refine ⟨_, [_], _, rfl, .elseTag hsymbol, ?_⟩
    simp only [markers, List.head?_cons, List.getLast?_singleton, Option.any_some, Token.markers,
      hsymbol]
  | chain closing htag hbody hinverse => exact ⟨_, _, _, rfl, htag, rfl⟩

theorem Spells.first_tag {ts : List Token} {s : Statement} {ss : List Statement}
    (h : Spells ts (.body (s :: ss))) (hne : ∀ c, s ≠ .content c) :
    ∃ o symbol tag after, s.outline? = some o ∧ IsTag symbol tag ∧ ts = tag ++ after
      ∧ o.strip.opening = (markers tag).opening := by
  cases h with
  | content hsymbol hafter => exact absurd rfl (hne _)
  | oneTag htag hs hafter =>
    cases hs with
    | mustache ho hs | decorator hs | comment hs | partialCall hindent hs =>
      exact ⟨_, _, _, _, rfl, htag, rfl, congrArg _ hs⟩
  | block hopening hclosing hloc hbody hinverse hafter
  | inverseBlock hopening hclosing hloc hbody hinverse hplain hafter =>
    exact ⟨_, _, _, _, rfl, hopening, rfl, rfl⟩
  | decoratorBlock hopening hclosing hbody hafter
  | partialBlock hopening hclosing hbody hafter =>
    exact ⟨_, _, _, _, rfl, hopening, rfl, rfl⟩

mutual

/-- The blocks in a statement, those that stand for an `{{else if}}` left out. -/
def Statement.blocks : Statement → List (Block Statement)
  | .block ⟨call, program, inverse, openStrip, inverseStrip, closeStrip, loc⟩ =>
    ⟨call, program, inverse, openStrip, inverseStrip, closeStrip, loc⟩
      :: (sectionBlocks program ++ sectionBlocks inverse)
  | .decoratorBlock ⟨_, program, inverse, _, _, _, _⟩ =>
    sectionBlocks program ++ sectionBlocks inverse
  | .partialBlock ⟨_, program, _, _, _⟩ => Program.blocks program
  | .mustache _ => []
  | .decorator _ => []
  | .content _ => []
  | .comment _ => []
  | .partialCall _ => []

def blocksAll : List Statement → List (Block Statement)
  | [] => []
  | s :: ss => s.blocks ++ blocksAll ss

def Program.blocks : Program Statement → List (Block Statement)
  | ⟨body, _, chained⟩ => if chained then (blocksAll body).tail else blocksAll body

def sectionBlocks : Option (Program Statement) → List (Block Statement)
  | none => []
  | some p => Program.blocks p

end

/-- Whether a block is opened by `{{^`. -/
def Block.IsInverse (ts : List Token) (b : Block Statement) : Prop :=
  ∃ t ∈ ts, t.symbol = .opener .inverse ∧ t.loc.start = b.loc.start

theorem isInverse_of_tag {pre opening after : List Token} {b : Block Statement}
    (h : IsTag (.opener .inverse) opening)
    (hloc : ∃ t, opening.head? = some t ∧ t.loc.start = b.loc.start) :
    b.IsInverse (pre ++ (opening ++ after)) := by
  obtain ⟨t, ht, hloc⟩ := hloc
  refine ⟨t, ?_, ?_, hloc⟩
  · exact List.mem_append_right _ (List.mem_append_left _ (List.mem_of_mem_head? ht))
  · cases h with
    | braces hopener hinner hcloser =>
      cases ht
      exact hopener

end HtmlTemplate.Mustache

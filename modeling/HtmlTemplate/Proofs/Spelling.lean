import HtmlTemplate.Proofs.Reading

/-! The tokens that the statements of a template are spelled with: which of them make up a tag,
and where the bodies stand between the tags. -/

namespace HtmlTemplate.Mustache

/-- Whether a symbol stands between the braces of a tag. -/
def Symbol.isInner : Symbol → Bool
  | .openCall | .closeCall | .equals | .data | .separator _ | .name .. | .openParams
  | .closeParams | .literal _ => true
  | .content _ | .comment _ | .opener _ | .elseTag | .close | .closeRaw | .endOfInput => false

/-- The markers of a token; those of a comment are in its text. -/
def Token.markers (t : Token) : Strip :=
  match t.symbol with
  | .comment text => commentStrip text
  | _ => t.strip

/-- The tokens of one tag, and the symbol that it begins with. -/
inductive IsTag : Symbol → List Token → Prop
  | comment {t : Token} {text : List Char} (h : t.symbol = .comment text) :
    IsTag (.comment text) [t]
  | elseTag {t : Token} (h : t.symbol = .elseTag) : IsTag .elseTag [t]
  | braces {o : Opener} {opener closer : Token} {inner : List Token}
    (hopener : opener.symbol = .opener o) (hinner : ∀ t ∈ inner, t.symbol.isInner = true)
    (hcloser : closer.symbol = .close ∨ closer.symbol = .closeRaw) :
    IsTag (.opener o) (opener :: (inner ++ [closer]))

/-- The markers at the two ends of some tokens. -/
def markers (tag : List Token) : Strip :=
  ⟨tag.head?.any (·.markers.opening), tag.getLast?.any (·.markers.closing)⟩

theorem markers_braces {o : Opener} {opener closer : Token} (inner : List Token)
    (hopener : opener.symbol = .opener o)
    (hcloser : closer.symbol = .close ∨ closer.symbol = .closeRaw) :
    markers (opener :: (inner ++ [closer])) = tagStrip opener closer := by
  have hlast : (opener :: (inner ++ [closer])).getLast? = some closer := by
    rw [← List.cons_append, List.getLast?_append]
    rfl
  obtain hcloser | hcloser := hcloser <;>
    simp only [markers, hlast, List.head?_cons, Option.any_some, tagStrip, Token.markers, hopener,
      hcloser]

def Inside (ts rest : List Token) : Prop :=
  ∃ inner, ts = inner ++ rest ∧ ∀ t ∈ inner, t.symbol.isInner = true

namespace Inside

variable {t : Token} {ts rest rest' : List Token}

theorem refl (ts : List Token) : Inside ts ts :=
  ⟨[], rfl, List.forall_mem_nil _⟩

theorem cons (ht : t.symbol.isInner = true) (h : Inside ts rest) : Inside (t :: ts) rest := by
  obtain ⟨inner, rfl, hinner⟩ := h
  exact ⟨t :: inner, rfl, List.forall_mem_cons.mpr ⟨ht, hinner⟩⟩

theorem trans (h : Inside ts rest) (h' : Inside rest rest') : Inside ts rest' := by
  obtain ⟨inner, rfl, hinner⟩ := h
  obtain ⟨inner', rfl, hinner'⟩ := h'
  exact ⟨inner ++ inner', (List.append_assoc _ _ _).symm,
    List.forall_mem_append.mpr ⟨hinner, hinner'⟩⟩

end Inside

variable {ts : List Token}

theorem segments_inside {p : Path} {r : ParsedAny ts Path} (h : segments p ts = .ok r) :
    Inside ts r.rest := by
  fun_induction segments p ts with
  | case1 p sep name ts slash text bracketed hname hsep joined =>
    rename_i ih
    simp only [bind_eq_ok, pure_eq_ok] at h
    obtain ⟨q, -, ⟨p', rest, hrest⟩, hsegments, rfl⟩ := h
    exact .cons (by rw [hsep]; rfl) (.cons (by rw [hname]; rfl) (ih q hsegments))
  | case2 =>
    cases h
    exact .refl _
  | case3 =>
    cases h
    exact .refl _

theorem namePath_inside {t : Token} {text : List Char} {bracketed : Bool}
    {r : ParsedAny ts Expression} (h : namePath t text bracketed ts = .ok r) :
    Inside ts r.rest := by
  simp only [namePath, bind_eq_ok, pure_eq_ok] at h
  obtain ⟨p, -, ⟨p', rest, hrest⟩, hsegments, rfl⟩ := h
  exact segments_inside hsegments

theorem pathFrom_inside {p : Path} {r : ParsedAny ts Expression} (h : pathFrom p ts = .ok r) :
    Inside ts r.rest := by
  cases ts with
  | nil =>
    cases h
    exact .refl _
  | cons t ts =>
    simp only [pathFrom] at h
    split at h
    · rename_i hsymbol
      simp only [bind_eq_ok, pure_eq_ok] at h
      obtain ⟨q, -, ⟨p', rest, hrest⟩, hsegments, rfl⟩ := h
      exact .cons (by rw [hsymbol]; rfl) (segments_inside hsegments)
    · cases h
      exact .refl _

mutual

theorem Expression.Read.inside {ts rest : List Token} {e : Expression} :
    Expression.Read ts e rest → Inside ts rest
  | .call hopening hcall hclosing =>
    .cons (by rw [hopening]; rfl) (hcall.inside.trans (.cons (by rw [hclosing]; rfl) (.refl _)))
  | .name hsymbol hpath => .cons (by rw [hsymbol]; rfl) (namePath_inside hpath)
  | .data hsymbol hpath => .cons (by rw [hsymbol]; rfl) (pathFrom_inside hpath)
  | .literal hsymbol => .cons (by rw [hsymbol]; rfl) (.refl _)

theorem Call.Read.inside {ts rest : List Token} {c : Call Expression} :
    Call.Read ts c rest → Inside ts rest
  | .intro hcallee hparams hpairs => (hcallee.inside.trans hparams.inside).trans hpairs.inside

theorem paramsRead.inside {ts rest : List Token} {es : List Expression} :
    paramsRead ts es rest → Inside ts rest
  | .nil _ => .refl _
  | .cons _ he hes => he.inside.trans hes.inside

theorem pairsRead.inside {ts rest : List Token} {ps : List (Pair Expression)} :
    pairsRead ts ps rest → Inside ts rest
  | .nil _ => .refl _
  | .cons hkey heq hvalue hpairs =>
    .cons (by rw [hkey]; rfl) (.cons (by rw [heq]; rfl) (hvalue.inside.trans hpairs.inside))

end

/-- Names between bars, or nothing. -/
inductive Barred : List Token → Prop
  | none : Barred []
  | some {opening closing : Token} {names : List Token} (hopening : opening.symbol = .openParams)
    (hnames : ∀ t ∈ names, ∃ text bracketed, t.symbol = .name text bracketed)
    (hclosing : closing.symbol = .closeParams) : Barred (opening :: names ++ [closing])

theorem isInner_of_names {names : List Token}
    (h : ∀ t ∈ names, ∃ text bracketed, t.symbol = .name text bracketed) :
    ∀ t ∈ names, t.symbol.isInner = true := by
  intro t ht
  obtain ⟨text, bracketed, hname⟩ := h t ht
  rw [hname]
  rfl

theorem Barred.isInner {run : List Token} (h : Barred run) :
    ∀ t ∈ run, t.symbol.isInner = true := by
  cases h with
  | none => exact List.forall_mem_nil _
  | some hopening hnames hclosing =>
    rw [List.forall_mem_append, List.forall_mem_cons, List.forall_mem_singleton, hopening, hclosing]
    exact ⟨⟨rfl, isInner_of_names hnames⟩, rfl⟩

theorem names_tokens (ts : List Token) :
    ∃ run, ts = run ++ (names ts).rest
      ∧ ∀ t ∈ run, ∃ text bracketed, t.symbol = .name text bracketed := by
  induction ts with
  | nil => exact ⟨[], rfl, List.forall_mem_nil _⟩
  | cons t ts ih =>
    unfold names
    split
    · rename_i text bracketed hsymbol
      obtain ⟨run, hrun, hnames⟩ := ih
      exact ⟨t :: run, congrArg (t :: ·) hrun,
        List.forall_mem_cons.mpr ⟨⟨text, bracketed, hsymbol⟩, hnames⟩⟩
    · exact ⟨[], rfl, List.forall_mem_nil _⟩

theorem names_inside (ts : List Token) : Inside ts (names ts).rest := by
  obtain ⟨run, hrun, hnames⟩ := names_tokens ts
  exact ⟨run, hrun, isInner_of_names hnames⟩

theorem blockParams_tokens {r : ParsedAny ts (List (List Char))} (h : blockParams ts = .ok r) :
    ∃ run, ts = run ++ r.rest ∧ Barred run := by
  cases ts with
  | nil =>
    cases h
    exact ⟨[], rfl, .none⟩
  | cons t ts =>
    simp only [blockParams] at h
    split at h
    · rename_i hsymbol
      split at h
      · simp [unexpected, faultAt, bind_eq_ok] at h
      · simp only [bind_eq_ok, pure_eq_ok] at h
        obtain ⟨closing, hclosing, rfl⟩ := h
        obtain ⟨hrest, hclosing⟩ := expect_ok hclosing
        obtain ⟨run, hrun, hnames⟩ := names_tokens ts
        rw [hrest] at hrun
        exact ⟨t :: run ++ [closing.value], by simp [hrun], .some hsymbol hnames hclosing⟩
    · cases h
      exact ⟨[], rfl, .none⟩

theorem blockParams_inside {r : ParsedAny ts (List (List Char))} (h : blockParams ts = .ok r) :
    Inside ts r.rest := by
  obtain ⟨run, hrun, hbarred⟩ := blockParams_tokens h
  exact ⟨run, hrun, hbarred.isInner⟩

def StartsTag (o : Opener) (t : Token) (ts rest : List Token) (strip : Strip) : Prop :=
  ∃ tag, t :: ts = tag ++ rest ∧ IsTag (.opener o) tag ∧ tag.head? = some t ∧ strip = markers tag

theorem Inside.startsTag {o : Opener} {t closing : Token} {rest : List Token}
    (hinside : Inside ts (closing :: rest)) (hopener : t.symbol = .opener o)
    (hclosing : closing.symbol = .close ∨ closing.symbol = .closeRaw) :
    StartsTag o t ts rest (tagStrip t closing) := by
  obtain ⟨inner, rfl, hinner⟩ := hinside
  refine ⟨t :: (inner ++ [closing]), by simp, .braces hopener hinner hclosing, rfl, ?_⟩
  exact (markers_braces inner hopener hclosing).symm

theorem Head.Read.startsTag {o : Opener} {t : Token} {opened : Head} {rest : List Token}
    (h : Head.Read t ts opened rest) (ht : t.symbol = .opener o) :
    StartsTag o t ts rest opened.strip ∧ opened.start = t.loc.start := by
  obtain ⟨hcall, hparams, hclosing⟩ := h
  exact ⟨(hcall.inside.trans (blockParams_inside hparams)).startsTag ht (.inl hclosing), rfl⟩

def StartsCloser (ts rest : List Token) (c : Closer) : Prop :=
  ∃ tag, ts = tag ++ rest ∧ IsTag (.opener .endBlock) tag
    ∧ (∃ t, tag.getLast? = some t ∧ t.loc.stop = c.stop) ∧ c.strip = markers tag

theorem Closer.Read.startsCloser {opened : Head} {closed : Closer} {rest : List Token}
    (h : Closer.Read opened ts closed rest) : StartsCloser ts rest closed := by
  obtain ⟨hopening, hname, hclosing⟩ := h
  obtain ⟨inner, rfl, hinner⟩ := hname.inside
  refine ⟨_ :: (inner ++ [_]), by simp, .braces hopening hinner (.inl hclosing), ⟨_, ?_, rfl⟩,
    (markers_braces inner hopening (.inl hclosing)).symm⟩
  rw [← List.cons_append, List.getLast?_concat]

theorem CallTag.startsTag {o : Opener} {t : Token} {ending : Symbol} {c : Call Expression}
    {strip : Strip} {loc : Location} {rest : List Token}
    (h : CallTag t ending ts c strip loc rest) (ht : t.symbol = .opener o)
    (hending : ending = .close ∨ ending = .closeRaw) : StartsTag o t ts rest strip := by
  obtain ⟨hcall, rfl⟩ := h
  exact hcall.inside.startsTag ht hending

/-- What some tokens stand for. -/
inductive Portion where
  | body (ss : List Statement)
  /-- The sections of a block after its first one: the markers of the tag that opens them, and
  those of the tag that closes the block if they count for the first of the sections. -/
  | inverse (strip : Strip) (closing : Option Strip) (p : Option (Program Statement))

/-- A statement that is one tag, of which some things are told. -/
inductive Statement.IsOneTag : Symbol → Strip → Statement → Prop
  | mustache {m : Interpolation} {o : Opener} {strip : Strip}
    (ho : o = .escaped ∨ o = .raw ∨ o = .ampersand) (hstrip : m.strip = strip) :
    IsOneTag (.opener o) strip (.mustache m)
  | decorator {m : Interpolation} {strip : Strip} (hstrip : m.strip = strip) :
    IsOneTag (.opener .decorator) strip (.decorator m)
  | comment {c : Comment} {text : List Char} {strip : Strip} (hstrip : c.strip = strip) :
    IsOneTag (.comment text) strip (.comment c)
  | partialCall {p : PartialCall} {strip : Strip} (hindent : p.indent = [])
    (hstrip : p.strip = strip) : IsOneTag (.opener .partialCall) strip (.partialCall p)

/-- A location goes from the start of one tag to the end of another. -/
def Encloses (opening closing : List Token) (loc : Location) : Prop :=
  (∃ t, opening.head? = some t ∧ t.loc.start = loc.start)
    ∧ ∃ t, closing.getLast? = some t ∧ t.loc.stop = loc.stop

/-- What tokens spell, with the texts as written. -/
inductive Spells : List Token → Portion → Prop
  | nil : Spells [] (.body [])
  | content {t : Token} {text : List Char} {after : List Token} {ss : List Statement}
    (hsymbol : t.symbol = .content text) (hafter : Spells after (.body ss)) :
    Spells (t :: after) (.body (.content { value := text, written := text, loc := t.loc } :: ss))
  | oneTag {symbol : Symbol} {tag after : List Token} {s : Statement} {ss : List Statement}
    (htag : IsTag symbol tag) (hs : s.IsOneTag symbol (markers tag))
    (hafter : Spells after (.body ss)) :
    Spells (tag ++ after) (.body (s :: ss))
  | block {opening main rest closing after : List Token} {call : Call Expression}
    {body ss : List Statement} {params : List (List Char)} {strip : Strip}
    {inverse : Option (Program Statement)} {loc : Location}
    (hopening : IsTag (.opener .block) opening) (hclosing : IsTag (.opener .endBlock) closing)
    (hloc : Encloses opening closing loc)
    (hbody : Spells main (.body body))
    (hinverse : Spells rest (.inverse strip (some (markers closing)) inverse))
    (hafter : Spells after (.body ss)) :
    Spells (opening ++ (main ++ (rest ++ (closing ++ after))))
      (.body (.block ⟨call, some ⟨body, params, false⟩, inverse, markers opening, strip,
        markers closing, loc⟩ :: ss))
  | inverseBlock {opening main rest closing after : List Token} {call : Call Expression}
    {body ss : List Statement} {params : List (List Char)} {strip : Strip}
    {inverse : Option (Program Statement)} {loc : Location}
    (hopening : IsTag (.opener .inverse) opening) (hclosing : IsTag (.opener .endBlock) closing)
    (hloc : Encloses opening closing loc)
    (hbody : Spells main (.body body))
    (hinverse : Spells rest (.inverse strip (some (markers closing)) inverse))
    (hplain : ∀ p ∈ inverse, p.chained = false) (hafter : Spells after (.body ss)) :
    Spells (opening ++ (main ++ (rest ++ (closing ++ after))))
      (.body (.block ⟨call, inverse, some ⟨body, params, false⟩, markers opening, strip,
        markers closing, loc⟩ :: ss))
  | decoratorBlock {opening main closing after : List Token} {call : Call Expression}
    {body ss : List Statement} {params : List (List Char)} {loc : Location}
    (hopening : IsTag (.opener .decoratorBlock) opening)
    (hclosing : IsTag (.opener .endBlock) closing) (hbody : Spells main (.body body))
    (hafter : Spells after (.body ss)) :
    Spells (opening ++ (main ++ (closing ++ after)))
      (.body (.decoratorBlock ⟨call, some ⟨body, params, false⟩, none, markers opening, {},
        markers closing, loc⟩ :: ss))
  | partialBlock {opening main closing after : List Token} {call : Call Expression}
    {body ss : List Statement} {loc : Location}
    (hopening : IsTag (.opener .partialBlock) opening)
    (hclosing : IsTag (.opener .endBlock) closing) (hbody : Spells main (.body body))
    (hafter : Spells after (.body ss)) :
    Spells (opening ++ (main ++ (closing ++ after)))
      (.body (.partialBlock ⟨call, ⟨body, [], false⟩, markers opening, markers closing, loc⟩ :: ss))
  | noInverse (closing : Option Strip) : Spells [] (.inverse {} closing none)
  | elseSection {t : Token} {main : List Token} {body : List Statement} (closing : Option Strip)
    (hsymbol : t.symbol = .elseTag) (hbody : Spells main (.body body)) :
    Spells (t :: main) (.inverse t.strip closing (some ⟨body, [], false⟩))
  | chain {tag main rest : List Token} {call : Call Expression} {body : List Statement}
    {params : List (List Char)} {strip : Strip} {inverse : Option (Program Statement)}
    {loc : Location} (closing : Option Strip) (htag : IsTag (.opener .elseChain) tag)
    (hbody : Spells main (.body body)) (hinverse : Spells rest (.inverse strip none inverse)) :
    Spells (tag ++ (main ++ rest)) (.inverse (markers tag) closing
      (some ⟨[.block ⟨call, some ⟨body, params, false⟩, inverse, markers tag, strip,
        closing.getD strip, loc⟩], [], true⟩))

theorem Spells.eq_nil {ts : List Token} {strip : Strip} {closing : Option Strip}
    (h : Spells ts (.inverse strip closing none)) : ts = [] := by
  cases h
  rfl

def SpellsBody (ts rest : List Token) (ss : List Statement) : Prop :=
  ∃ toks, ts = toks ++ rest ∧ Spells toks (.body ss)

def SpellsStatement (ts rest : List Token) (s : Statement) : Prop :=
  ∃ toks, ts = toks ++ rest ∧
    ∀ {after : List Token} {ss : List Statement}, Spells after (.body ss) →
      Spells (toks ++ after) (.body (s :: ss))

def SpellsSections (ts rest : List Token) (sections : Sections) : Prop :=
  ∃ toks, ts = toks ++ rest ∧ ∀ (closer : Closer) (first : Bool),
    let inverse := Sections.inverse? closer sections.last first sections.chain
    Spells toks (.inverse (inverse.elim {} (·.1)) (if first then some closer.strip else none)
      (inverse.map (·.2)))

theorem StartsTag.spellsStatement {o : Opener} {t : Token} {rest : List Token} {strip : Strip}
    {s : Statement} (h : StartsTag o t ts rest strip) (hs : s.IsOneTag (.opener o) strip) :
    SpellsStatement (t :: ts) rest s := by
  obtain ⟨tag, hts, htag, -, rfl⟩ := h
  exact ⟨tag, hts, .oneTag htag hs⟩

theorem spellsStatement_block {t : Token} {rest₁ rest₂ rest₃ rest₄ : List Token}
    (inverted : Bool) {head : Head} {first : List Statement} {more : Sections} {closer : Closer}
    (hopening : StartsTag (if inverted then .inverse else .block) t ts rest₁ head.strip)
    (hstart : head.start = t.loc.start) (hfirst : SpellsBody rest₁ rest₂ first)
    (hmore : SpellsSections rest₂ rest₃ more) (hchain : inverted = true → more.chain = [])
    (hclosing : StartsCloser rest₃ rest₄ closer) :
    SpellsStatement (t :: ts) rest₄ (.block (.ofSections head inverted first more closer)) := by
  obtain ⟨opening, hts, hopening, ht, hopens⟩ := hopening
  obtain ⟨main, rfl, hmain⟩ := hfirst
  obtain ⟨sections, rfl, hsections⟩ := hmore
  obtain ⟨closing, rfl, hclosing, hstop, hcloses⟩ := hclosing
  have hloc : Encloses opening closing ⟨head.start, closer.stop⟩ := ⟨⟨t, ht, hstart.symm⟩, hstop⟩
  have hsections := hsections closer true
  rw [if_pos rfl, hcloses] at hsections
  refine ⟨opening ++ (main ++ (sections ++ closing)), ?_, fun {after' ss} hss => ?_⟩
  · simp only [hts, List.append_assoc]
  · simp only [List.append_assoc, Block.ofSections, hopens, hcloses]
    cases inverted with
    | false => exact .block hopening hclosing hloc hmain hsections hss
    | true =>
      refine .inverseBlock hopening hclosing hloc hmain hsections (fun p hp => ?_) hss
      rw [hchain rfl, Sections.inverse?, Option.map_map] at hp
      obtain ⟨_, -, rfl⟩ := Option.map_eq_some_iff.mp hp
      rfl

theorem spellsStatement_decoratorBlock {t : Token} {rest₁ rest₂ rest₃ : List Token}
    {head : Head} {first : List Statement} {closer : Closer}
    (hopening : StartsTag .decoratorBlock t ts rest₁ head.strip)
    (hfirst : SpellsBody rest₁ rest₂ first) (hclosing : StartsCloser rest₂ rest₃ closer) :
    SpellsStatement (t :: ts) rest₃ (.decoratorBlock (.ofSections head false first {} closer)) := by
  obtain ⟨opening, hts, hopening, -, hopens⟩ := hopening
  obtain ⟨main, rfl, hmain⟩ := hfirst
  obtain ⟨closing, rfl, hclosing, -, hcloses⟩ := hclosing
  refine ⟨opening ++ (main ++ closing), ?_, fun {after' ss} hss => ?_⟩
  · simp only [hts, List.append_assoc]
  · simp only [List.append_assoc, Block.ofSections, hopens, hcloses, Sections.inverse?,
      Option.map_none]
    exact .decoratorBlock hopening hclosing hmain hss

theorem spellsStatement_partialBlock {t : Token} {rest₁ rest₂ rest₃ : List Token}
    {head : Head} {first : List Statement} {closer : Closer} {loc : Location}
    (hopening : StartsTag .partialBlock t ts rest₁ head.strip)
    (hfirst : SpellsBody rest₁ rest₂ first) (hclosing : StartsCloser rest₂ rest₃ closer) :
    SpellsStatement (t :: ts) rest₃
      (.partialBlock ⟨head.call, ⟨first, [], false⟩, head.strip, closer.strip, loc⟩) := by
  obtain ⟨opening, hts, hopening, -, hopens⟩ := hopening
  obtain ⟨main, rfl, hmain⟩ := hfirst
  obtain ⟨closing, rfl, hclosing, -, hcloses⟩ := hclosing
  refine ⟨opening ++ (main ++ closing), ?_, fun {after' ss} hss => ?_⟩
  · simp only [hts, List.append_assoc]
  · simp only [List.append_assoc, hopens, hcloses]
    exact .partialBlock hopening hclosing hmain hss

theorem SpellsSections.chain {t : Token} {rest₁ rest₂ rest₃ : List Token} {head : Head}
    {first : List Statement} {more : Sections} (hmore : SpellsSections rest₂ rest₃ more)
    (htag : StartsTag .elseChain t ts rest₁ head.strip) (hfirst : SpellsBody rest₁ rest₂ first) :
    SpellsSections (t :: ts) rest₃ { more with chain := (head, first) :: more.chain } := by
  obtain ⟨tag, hts, htag, -, hstrip⟩ := htag
  obtain ⟨main, rfl, hmain⟩ := hfirst
  obtain ⟨sections, rfl, hsections⟩ := hmore
  refine ⟨tag ++ (main ++ sections), by simp only [hts, List.append_assoc],
    fun closer isFirst => ?_⟩
  have hspells := hsections closer false
  simp only [Sections.inverse?, Option.elim_some, Option.map_some, hstrip]
  cases isFirst with
  | false => exact .chain none htag hmain hspells
  | true => exact .chain (some closer.strip) htag hmain hspells

theorem SpellsStatement.body {rest rest' : List Token} {s : Statement} {ss : List Statement}
    (h : SpellsStatement ts rest s) (h' : SpellsBody rest rest' ss) :
    SpellsBody ts rest' (s :: ss) := by
  obtain ⟨toks, rfl, hspells⟩ := h
  obtain ⟨toks', rfl, hspells'⟩ := h'
  exact ⟨toks ++ toks', (List.append_assoc _ _ _).symm, hspells hspells'⟩

mutual

theorem bodyRead.spelled {ts rest : List Token} {ss : List Statement} :
    bodyRead ts ss rest → SpellsBody ts rest ss
  | .nil _ => ⟨[], rfl, .nil⟩
  | .cons _ hs hss => hs.spelled.body hss.spelled

theorem Statement.Read.spelled {ts rest : List Token} {s : Statement} :
    Statement.Read ts s rest → SpellsStatement ts rest s
  | .content hsymbol => ⟨[_], rfl, .content hsymbol⟩
  | @Statement.Read.comment t _ text hsymbol => by
    have hmarkers : commentStrip text = markers [t] := by
      simp only [markers, List.head?_cons, List.getLast?_singleton, Option.any_some,
        Token.markers, hsymbol]
    exact ⟨[t], rfl, .oneTag (.comment hsymbol) (.comment hmarkers)⟩
  | .mustache hsymbol hprints htag =>
    (htag.startsTag hsymbol (Opener.ending_eq _)).spellsStatement
      (.mustache (Opener.prints_iff.mp hprints) rfl)
  | .decorator hsymbol htag =>
    (htag.startsTag hsymbol (.inl rfl)).spellsStatement (.decorator rfl)
  | .partialCall hsymbol htag =>
    (htag.startsTag hsymbol (.inl rfl)).spellsStatement (.partialCall rfl rfl)
  | .block inverted hsymbol hhead hfirst hmore hcloser => by
    obtain ⟨hopening, hstart⟩ := hhead.startsTag hsymbol
    obtain ⟨hsections, hchain⟩ := hmore.spelled
    exact spellsStatement_block inverted hopening hstart hfirst.spelled hsections hchain
      hcloser.startsCloser
  | .decoratorBlock hsymbol hhead hfirst hcloser =>
    spellsStatement_decoratorBlock (hhead.startsTag hsymbol).1 hfirst.spelled hcloser.startsCloser
  | .partialBlock hsymbol hhead hfirst hcloser =>
    spellsStatement_partialBlock (hhead.startsTag hsymbol).1 hfirst.spelled hcloser.startsCloser

theorem Sections.Read.spelled {inverted : Bool} {ts rest : List Token} {more : Sections} :
    Sections.Read inverted ts more rest →
      SpellsSections ts rest more ∧ (inverted = true → more.chain = [])
  | .nil _ _ => ⟨⟨[], rfl, fun _ _ => .noInverse _⟩, fun _ => rfl⟩
  | .chain hsymbol hhead hfirst hmore =>
    ⟨hmore.spelled.1.chain (hhead.startsTag hsymbol).1 hfirst.spelled, fun h => nomatch h⟩
  | .last hsymbol hbody => by
    obtain ⟨main, hts, hmain⟩ := hbody.spelled
    exact ⟨⟨_ :: main, congrArg (_ :: ·) hts, fun _ _ => .elseSection _ hsymbol hmain⟩,
      fun _ => rfl⟩

end

theorem parseWritten_spelled {text : List Char} {written : Program Statement}
    (h : parseWritten text = .ok written) :
    ∃ toks rest body, scan text = .ok (toks ++ rest) ∧ (peek rest).symbol = .endOfInput
      ∧ Spells toks (.body body) ∧ written = ⟨body, [], false⟩ := by
  obtain ⟨ts, body, rest, hscan, hbody, hend, rfl⟩ := parseWritten_read h
  obtain ⟨toks, rfl, hspells⟩ := hbody.spelled
  exact ⟨toks, rest, body, hscan, hend, hspells, rfl⟩

theorem parse_spelled {text : List Char} {keepLines : Bool} {p : Program Statement}
    (h : parse text keepLines = .ok p) :
    ∃ toks rest body, scan text = .ok (toks ++ rest) ∧ (peek rest).symbol = .endOfInput
      ∧ Spells toks (.body body) ∧ p = Program.control keepLines ⟨body, [], false⟩ := by
  obtain ⟨ts, body, rest, hscan, hbody, hend, rfl⟩ := parse_read h
  obtain ⟨toks, rfl, hspells⟩ := hbody.spelled
  exact ⟨toks, rest, body, hscan, hend, hspells, rfl⟩

end HtmlTemplate.Mustache

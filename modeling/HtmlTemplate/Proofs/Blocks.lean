import HtmlTemplate.Proofs.Interpolations

/-! Reading back the blocks of a draft, given how their bodies are read. -/

namespace HtmlTemplate.Draft

open Mustache
open HtmlTemplate.Tree (Assembly)

variable {src : Source} {p : Position} {start fallback : Nat} {a a' b : Assembly}
  {text rest after : List Char} {nodes : List Tree.Statement}

structure SectionReads (src : Source) (p : Position) (a : Assembly) (text after : List Char)
    (fallback : Nat) (tree : List (List Char) → Tree.Section Tree.Statement) (a' : Assembly)
    (ts : List Token) (body : List Mustache.Statement) : Prop where
  scans : Scans .text p text ts .text after
  gives : ∀ next, endsBody next = true → GivesAny (Mustache.statements (ts ++ next)) body next
  untrimmed : allUntrimmed body
  leads : ∀ params, Assembly.sectionOf src a fallback ⟨body, params, false⟩ = .ok (tree params, a')
  grows : a.Grows [] a'

private theorem section_leads {body : List Mustache.Statement}
    (hb : Assembly.statements src a.pushBody.2 body = .ok b) (hgrows : a.pushBody.2.Grows nodes b) :
    ∃ a', a.Grows [] a' ∧ ∀ params, Assembly.sectionOf src a fallback ⟨body, params, false⟩
      = .ok (⟨nodes, params, false, Assembly.sectionSpan src
          (Program.loc? ⟨body, params, false⟩) fallback⟩, a') := by
  obtain ⟨⟨mode, state, q, l, n⟩, ⟨⟨frames, nextId⟩, current, pending⟩⟩ := b
  have hready := hgrows.ready
  obtain rfl : state = .beforeData := hready.state
  have hframes : frames = (a.markup.stack.nextId, .body nodes) :: a.markup.stack.frames :=
    hgrows.frames
  subst hframes
  refine ⟨⟨⟨mode, .beforeData, q, l, n⟩, ⟨⟨a.markup.stack.frames, nextId⟩, current, pending⟩⟩,
    ⟨⟨⟨rfl, hready.current, hready.pending⟩, hready.name⟩, by simp⟩, fun params => ?_⟩
  have hfinish : Tree.Markup.finish src ⟨⟨(a.markup.stack.nextId, .body nodes)
      :: a.markup.stack.frames, nextId⟩, current, pending⟩ .beforeData .block (src.offsetFor q)
        = .ok () := rfl
  rw [Assembly.sectionOf]
  show (Assembly.statements src a.pushBody.2 body >>= _) = _
  rw [hb]
  simp only [bind, Except.bind, Assembly.closeBody, Assembly.offset, hfinish, Assembly.popBody,
    Tree.OpenElements.popExpecting, if_true]
  rfl

theorem Ahead.span {chunk more : List Char} {ts : List Token} {ss : List Mustache.Statement}
    (h : Ahead src p a text after b chunk more ts ss) (hstands : src.Stands p start (text ++ after))
    (params : List (List Char)) :
    Assembly.sectionSpan src (Program.loc? ⟨contents p chunk ++ ss, params, false⟩) fallback
      = if text = [] then .empty fallback else span start text := by
  cases hbody : contents p chunk ++ ss with
  | nil =>
    rw [if_pos (h.empty.mp hbody)]
    rfl
  | cons s ss' =>
    have hne : text ≠ [] := fun htext => by
      rw [h.empty.mpr htext] at hbody
      cases hbody
    obtain ⟨last, hlast⟩ : ∃ last, (s :: ss').getLast? = some last :=
      ⟨_, List.getLast?_eq_some_getLast (List.cons_ne_nil s ss')⟩
    have hstart := h.first s (by rw [hbody]; rfl)
    have hstop := h.last last (by rw [hbody]; exact hlast)
    rw [if_neg hne]
    unfold Program.loc?
    simp only [List.head?_cons, hlast]
    show src.spanFor ⟨s.loc.start, last.loc.stop⟩ = _
    rw [hstart, hstop, hstands.spanFor]

theorem Leads.section {tree : List (List Char) → Tree.Section Tree.Statement}
    (h : Leads src p a.pushBody.2 text after b) (hgrows : a.pushBody.2.Grows nodes b)
    (hstands : src.Stands p start (text ++ after))
    (htree : ∀ params, tree params
      = ⟨nodes, params, false, if text = [] then .empty fallback else span start text⟩) :
    ∃ a' ts body, SectionReads src p a text after fallback tree a' ts body := by
  obtain ⟨chunk, more, ts, ss, h⟩ := h
  obtain ⟨a', hgrows', hsection⟩ := section_leads h.leads hgrows
  refine ⟨a', _, _, h.scansAll, fun next => h.givesAll, h.untrimmedAll, fun params => ?_, hgrows'⟩
  rw [hsection, h.span hstands, htree]

structure InverseReads (src : Source) (p : Position) (a : Assembly) (text after : List Char)
    (fallback : Nat) (tree : Option (Tree.Section Tree.Statement)) (a' : Assembly)
    (ts : List Token) (sections : Sections) (inverse : Option (Program Mustache.Statement)) :
    Prop where
  scans : Scans .text p text ts .text after
  ends : ∀ (t : Token) next, t.symbol = .opener .endBlock → endsBody (ts ++ t :: next) = true
  gives : ∀ (t : Token) next, t.symbol = .opener .endBlock →
    GivesAny (Mustache.sections false (ts ++ t :: next)) sections (t :: next)
  made : ∀ closer, Sections.inverse? closer sections.last true sections.chain
    = inverse.map fun p => ({}, p)
  untrimmed : sectionUntrimmed inverse
  leads : Assembly.sectionOf? src a fallback inverse = .ok (tree, a')
  grows : a.Grows [] a'

theorem no_inverse_reads (ha : a.Ready) :
    InverseReads src p a [] after fallback none a [] {} none where
  scans := Scans.nil _ _ _
  ends t next ht := by
    rw [List.nil_append]
    simp [endsBody, peek, ht]
  gives t next ht := by
    exact sections_gives_none false (by simp [peek, ht]) (by simp [peek, ht])
  made _ := rfl
  untrimmed := trivial
  leads := by rw [Assembly.sectionOf?]
  grows := Assembly.Grows.refl ha

theorem SectionReads.inverse {tree : List (List Char) → Tree.Section Tree.Statement}
    {ts : List Token} {body : List Mustache.Statement}
    (h : SectionReads src (p.after elseText) a text after fallback tree a' ts body) :
    InverseReads src p a (elseText ++ text) after fallback (some (tree [])) a'
      (tokenAt p elseText .elseTag :: ts) ⟨[], some ({}, body)⟩ (some { body }) where
  scans := scans_elseTag.append h.scans
  ends t next ht := rfl
  gives t next ht := by
    have hends : endsBody (t :: next) = true := by simp [endsBody, peek, ht]
    exact (Sections.Read.last rfl (statements_gives_iff.mp (h.gives (t :: next) hends))).gives
  made _ := rfl
  untrimmed := ⟨rfl, h.untrimmed⟩
  leads := by
    rw [Assembly.sectionOf?, h.leads]
    rfl
  grows := h.grows

theorem head_gives {raw : Bool} {opening closing : Token} {ts ts' next : List Token}
    {c : Mustache.Call Mustache.Expression} {path : Mustache.Path} {names : List (List Char)}
    {tree : Tree.Call Tree.Expression} (hclosing : closing.symbol = .close)
    (hopenStrip : opening.strip = {}) (hcloseStrip : closing.strip = {})
    (h : CallReads src raw p text rest ts ts' c path names tree) :
    Gives (head opening (ts ++ (ts' ++ closing :: next))) ⟨c, names, {}, opening.loc.start⟩
      next := by
  have hends : EndsCall (closing :: next) := by simp [EndsCall, peek, hclosing]
  have hstrip : tagStrip opening closing = {} := by
    rw [tagStrip, hopenStrip, hcloseStrip]
  obtain ⟨hlength, hnames⟩ := h.givesNames _ hends
  rw [← hstrip]
  exact (Head.Read.intro (call_gives_iff.mp (h.gives _ hends)) hnames hclosing).gives

theorem closer_gives {raw : Bool} {opened : Head} {opening closing : Token}
    {ts next : List Token} {path : Mustache.Path} {tree : Tree.Expression}
    (hopening : opening.symbol = .opener .endBlock) (hclosing : closing.symbol = .close)
    (hopenStrip : opening.strip = {}) (hcloseStrip : closing.strip = {})
    (h : Reads src raw p text rest ts (.path path) tree)
    (hwritten : path.written = opened.call.callee.written) :
    Gives (Mustache.closer opened (opening :: (ts ++ closing :: next)))
      ⟨{}, opening.loc.start, closing.loc.stop⟩ next := by
  have hunjoined : Unjoined (closing :: next) :=
    unjoined_cons (by simp [hclosing]) (by simp [hclosing])
  have hstrip : tagStrip opening closing = {} := by
    rw [tagStrip, hopenStrip, hcloseStrip]
  have hname := expression_gives_iff.mp (h.gives _ hunjoined)
  rw [← hstrip]
  exact (Closer.Read.intro hopening hname hclosing hwritten).gives

theorem block_gives {opening : Token} {ts r₁ r₂ r₃ next : List Token} {head : Head}
    {body : List Mustache.Statement} {sections : Sections} {closer : Closer}
    (hopening : opening.symbol = .opener .block) (hhead : Gives (Mustache.head opening ts) head r₁)
    (hbody : GivesAny (Mustache.statements r₁) body r₂)
    (hsections : GivesAny (Mustache.sections false r₂) sections r₃)
    (hcloser : Gives (Mustache.closer head r₃) closer next) :
    Gives (Mustache.statement (opening :: ts))
      (.block (.ofSections head false body sections closer)) next :=
  Statement.Read.gives (.block false hopening (head_gives_iff.mp hhead)
    (statements_gives_iff.mp hbody) (sections_gives_iff.mp hsections) (closer_gives_iff.mp hcloser))

theorem ofSections_eq {c : Mustache.Call Mustache.Expression} {names : List (List Char)}
    {body : List Mustache.Statement} {sections : Sections} {q stop : Position}
    {inverse : Option (Program Mustache.Statement)}
    (hmade : ∀ closer, Sections.inverse? closer sections.last true sections.chain
      = inverse.map fun p => ({}, p)) :
    Block.ofSections ⟨c, names, {}, p⟩ false body sections ⟨{}, q, stop⟩
      = ⟨c, some ⟨body, names, false⟩, inverse, {}, {}, {}, ⟨p, stop⟩⟩ := by
  unfold Block.ofSections
  simp only [hmade]
  cases inverse <;> rfl

private theorem block_leads {c : Mustache.Call Mustache.Expression}
    {call : Tree.Call Tree.Expression}
    {body : List Mustache.Statement} {names : List (List Char)}
    {inverse : Option (Program Mustache.Statement)} {loc : Location}
    {tree : Tree.Section Tree.Statement} {tree' : Option (Tree.Section Tree.Statement)}
    {a₁ a₂ : Assembly} {span : Span} (ha : a.Ready) (hcall : Tree.call src c = .ok call)
    (hspan : src.spanFor loc = span)
    (hbody : Assembly.sectionOf src a span.start ⟨body, names, false⟩ = .ok (tree, a₁))
    (hinverse : Assembly.sectionOf? src a₁ span.start inverse = .ok (tree', a₂)) :
    Assembly.statement src a (.block ⟨c, some ⟨body, names, false⟩, inverse, {}, {}, {}, loc⟩)
      = .ok (a₂.append (.block ⟨call, tree, tree', {}, {}, {}, span⟩)) := by
  rw [Assembly.statement, ha.isComment, if_neg Bool.false_ne_true, Assembly.block]
  simp only [bind, Except.bind, pure, Except.pure, hspan, ha.isData, Bool.not_true,
    if_neg Bool.false_ne_true, hcall, Assembly.sectionOf?, hbody, hinverse, Option.getD_some]

def closeText (path : List Char) : List Char :=
  ['{', '{', '/'] ++ (path ++ ['}', '}'])

private theorem open_reads {call : Call} (hwf : call.WellFormed true)
    (hstands : src.Stands p start (openText call ++ rest)) :
    ∃ t ts c, Scans .text p (openText call) (t :: ts) .text rest
      ∧ t.symbol = .opener .block
      ∧ (∀ next, Gives (head t (ts ++ next)) ⟨c, (call.arguments (start + 3)).names, {}, p⟩ next)
      ∧ c.callee.written = call.path ∧ Tree.call src c = .ok (call.treeAt (start + 3)) := by
  have hends : (['}', '}'] ++ rest).head?.all endsLiteral = true := rfl
  have hstands : src.Stands p start (['{', '{', '#'] ++ (call.text ++ (['}', '}'] ++ rest))) := by
    simpa [openText] using hstands
  obtain ⟨c, cs, hcs, hc, -⟩ := call_starts hwf hends
  have hopen : Scans .text p ['{', '{', '#'] _ (.tag false) (c :: cs) := scans_block hc
  rw [← hcs, ← List.append_assoc] at hopen
  obtain ⟨ts, ts', call', path, hcall, hwritten, -⟩ := Call.reads hwf hends hstands.after
  have hclose : Scans (.tag false) ((p.after ['{', '{', '#']).after call.text) ['}', '}'] _ .text
      rest := scans_close
  have hall := hopen.append (hcall.scans.append hclose)
  rw [← List.append_assoc, List.singleton_append] at hall
  refine ⟨tokenAt p ['{', '{', '#'] (.opener .block), _, call', hall, rfl, fun next => ?_, ?_,
    hcall.tree⟩
  · rw [List.append_assoc, List.append_assoc]
    exact head_gives rfl rfl rfl hcall
  · rw [hcall.callee]
    exact hwritten

private theorem close_reads (opened : Head) {path : List Char} (hpath : isPath path = true)
    (hopened : opened.call.callee.written = path)
    (hstands : src.Stands p start (closeText path ++ rest)) :
    ∃ t ts, Scans .text p (closeText path) (t :: ts) .text rest ∧ t.symbol = .opener .endBlock
      ∧ ∀ next, Gives (Mustache.closer opened (t :: (ts ++ next)))
          ⟨{}, p, p.after (closeText path)⟩ next := by
  have hends : (['}', '}'] ++ rest).head?.all endsLiteral = true := rfl
  have hstands : src.Stands p start (['{', '{', '/'] ++ (path ++ (['}', '}'] ++ rest))) := by
    simpa [closeText] using hstands
  obtain ⟨ts, path', hreads, hwritten⟩ := path_reads hpath hends hstands.after
  have hopen : Scans .text p ['{', '{', '/'] _ (.tag false) (path ++ ['}', '}'] ++ rest) :=
    scans_endBlock
  have hclose : Scans (.tag false) ((p.after ['{', '{', '/']).after path) ['}', '}'] _ .text
      rest := scans_close
  have hall := hopen.append (hreads.scans.append hclose)
  rw [List.singleton_append] at hall
  refine ⟨tokenAt p ['{', '{', '/'] (.opener .endBlock), _, hall, rfl, fun next => ?_⟩
  have hafter : p.after (closeText path)
      = ((p.after ['{', '{', '/']).after path).after ['}', '}'] := by
    rw [closeText, Position.after_append, Position.after_append]
  rw [List.append_assoc, hafter]
  exact closer_gives rfl rfl rfl rfl hreads (hwritten.trans hopened.symm)

theorem block_reads {call : Call} {body : List Node} {inverse : Option (List Node)}
    {a₁ a₂ : Assembly} {tsB tsI : List Token} {mbody : List Mustache.Statement}
    {sections : Sections} {minverse : Option (Program Mustache.Statement)}
    (hwf : call.WellFormed true) (ha : a.Ready)
    (hstands : src.Stands p start ((Node.block call body inverse).written ++ rest))
    (hbody : SectionReads src (p.after (openText call)) a (nodesText body)
      (inverseText inverse ++ (closeText call.path ++ rest)) start
      (fun params => sectionOf start params (nodesAt (start + byteLength (openText call)) body))
      a₁ tsB mbody)
    (hinverse : InverseReads src ((p.after (openText call)).after (nodesText body)) a₁
      (inverseText inverse) (closeText call.path ++ rest) start
      (inverseAt start (start + byteLength (openText call) + byteLength (nodesText body)) inverse)
      a₂ tsI sections minverse) :
    ∃ a' ts s, StatementReads src p a (Node.block call body inverse).written rest a' ts s
      ∧ a.Grows ((Node.block call body inverse).statementAt start).toList a' := by
  have hwritten : (Node.block call body inverse).written
      = openText call ++ (nodesText body ++ (inverseText inverse ++ closeText call.path)) := by
    simp [Node.written, closeText]
  have hspan := hstands.spanFor
  rw [hwritten] at hstands
  simp only [List.append_assoc] at hstands
  obtain ⟨t, ts, c, hopenScans, hopening, hhead, hcallee, hcall⟩ := open_reads hwf hstands
  obtain ⟨t', ts', hcloseScans, hclosing, hcloser⟩ :=
    close_reads ⟨c, (call.arguments (start + 3)).names, {}, p⟩ hwf.1 hcallee
      hstands.after.after.after
  have hbodyScans := hbody.scans
  have hassoc : nodesText body ++ (inverseText inverse ++ (closeText call.path ++ rest))
      = (nodesText body ++ (inverseText inverse ++ closeText call.path)) ++ rest := by simp
  rw [hassoc] at hopenScans
  rw [← List.append_assoc] at hbodyScans
  have hall := hopenScans.append (hbodyScans.append (hinverse.scans.append hcloseScans))
  rw [← hwritten] at hall
  have hafter : (((p.after (openText call)).after (nodesText body)).after
      (inverseText inverse)).after (closeText call.path)
        = p.after (Node.block call body inverse).written := by
    rw [hwritten, Position.after_append, Position.after_append, Position.after_append]
  have hgives : ∀ next,
      Gives (Mustache.statement (t :: (ts ++ (tsB ++ (tsI ++ t' :: (ts' ++ next))))))
      (.block ⟨c, some ⟨mbody, (call.arguments (start + 3)).names, false⟩, minverse, {}, {}, {},
        ⟨p, p.after (Node.block call body inverse).written⟩⟩) next := by
    intro next
    rw [← ofSections_eq hinverse.made, ← hafter]
    exact block_gives hopening (hhead _) (hbody.gives _ (hinverse.ends t' _ hclosing))
      (hinverse.gives t' _ hclosing) (hcloser next)
  have huntrimmed : (Mustache.Statement.block ⟨c, some ⟨mbody, (call.arguments (start + 3)).names,
      false⟩, minverse, {}, {}, {},
        ⟨p, p.after (Node.block call body inverse).written⟩⟩).Untrimmed :=
    ⟨rfl, rfl, rfl, ⟨rfl, hbody.untrimmed⟩, hinverse.untrimmed⟩
  refine ⟨_, _, _, ⟨fun more => ?_, hall, fun next => ?_, fun next => ?_, huntrimmed, rfl,
    block_leads ha hcall hspan (hbody.leads _) hinverse.leads⟩,
    (hbody.grows.trans hinverse.grows).trans (grows_append hinverse.grows.ready _)⟩
  · rw [hwritten]
    rfl
  · have htokens : t :: ts ++ (tsB ++ (tsI ++ t' :: ts')) ++ next
        = t :: (ts ++ (tsB ++ (tsI ++ t' :: (ts' ++ next)))) := by simp
    rw [htokens]
    exact hgives next
  · simp [endsBody, peek, hopening]

end HtmlTemplate.Draft

import HtmlTemplate.Proofs.Outlook

/-! Reading back the mustaches of a draft. -/

namespace HtmlTemplate.Draft

open Mustache
open HtmlTemplate.Tree (Assembly)

variable {src : Source} {p : Position} {start : Nat} {a : Assembly} {text rest after : List Char}

private theorem path_starts {written : List Char} (h : isPath written = true)
    (hrest : rest.head?.all (!isNameChar ·) = true) :
    ∃ c cs, written = c :: cs ∧ startsCall c = true ∧ startsElse (written ++ rest) = false := by
  obtain ⟨first, more, hsplit, hwritten⟩ := splitDots_eq written
  rw [isPath, hsplit] at h
  obtain ⟨hfirst, -⟩ := Bool.and_eq_true_iff.mp h
  unfold isHead at hfirst
  split at hfirst
  · rename_i name
    refine ⟨'@', name ++ dotted more, hwritten, by decide, ?_⟩
    rw [hwritten]
    exact startsElse_of_ne (by decide) _
  · obtain ⟨c, cs, hcs, hc, -, -⟩ := chars_of_isWord hfirst
    refine ⟨c, cs ++ dotted more, by rw [hwritten, hcs]; rfl, ?_, ?_⟩
    · simp [startsCall, startsWord_of_isAlpha hc]
    · rw [hwritten, List.append_assoc]
      exact startsElse_word hfirst (head?_dotted hrest)

theorem call_starts {call : Call} {named : Bool} (h : call.WellFormed named)
    (hrest : rest.head?.all endsLiteral = true) :
    ∃ c cs, call.text ++ rest = c :: cs ∧ startsCall c = true ∧ startsElse (c :: cs) = false := by
  obtain ⟨c, cs, hpath, hc, helse⟩ := path_starts h.1
    (head?_not_isNameChar (endsLiteral_arguments call.args hrest))
  refine ⟨c, cs ++ argumentsText call.args ++ rest, ?_, hc, ?_⟩
  · rw [Call.text, hpath]
    rfl
  · rw [hpath] at helse
    simpa using helse

def opener (trusting : Bool) : Opener :=
  if trusting then .raw else .escaped

def closer (trusting : Bool) : Symbol :=
  if trusting then .closeRaw else .close

theorem scans_openBraces {c : Char} {cs : List Char} (trusting : Bool) (hc : startsCall c = true)
    (helse : startsElse (c :: cs) = false) :
    Scans .text p (openBraces trusting)
      [tokenAt p (openBraces trusting) (.opener (opener trusting))] (.tag trusting) (c :: cs) := by
  cases trusting with
  | false => exact scans_escaped hc helse
  | true => exact scans_raw

theorem scans_closeBraces (trusting : Bool) :
    Scans (.tag trusting) p (closeBraces trusting)
      [tokenAt p (closeBraces trusting) (closer trusting)] .text rest := by
  cases trusting with
  | false => exact scans_close
  | true => exact scans_closeRaw

theorem endsCall_closer (trusting : Bool) {t : Token} {next : List Token}
    (h : t.symbol = closer trusting) : EndsCall (t :: next) := by
  cases trusting <;> simp [EndsCall, peek, h, closer]

theorem mustache_gives (trusting : Bool) {opening closing : Token} {ts next : List Token}
    {c : Mustache.Call Mustache.Expression} (hopening : opening.symbol = .opener (opener trusting))
    (hclosing : closing.symbol = closer trusting) (hopenStrip : opening.strip = {})
    (hcloseStrip : closing.strip = {})
    (hcall : Gives (Mustache.call (ts ++ closing :: next)) c (closing :: next)) :
    Gives (Mustache.statement (opening :: (ts ++ closing :: next)))
      (.mustache ⟨c, !trusting, {}, ⟨opening.loc.start, closing.loc.stop⟩⟩) next := by
  have hstrip : tagStrip opening closing = {} := by
    rw [tagStrip, hopenStrip, hcloseStrip]
  have hending : closing.symbol = (opener trusting).ending := by
    rw [hclosing]
    cases trusting <;> rfl
  have hprints : (opener trusting).prints = true := by cases trusting <;> rfl
  have hescaped : (opener trusting != .raw && opener trusting != .ampersand) = !trusting := by
    cases trusting <;> rfl
  have hread := Statement.Read.mustache hopening hprints (.intro (call_gives_iff.mp hcall) hending)
  rw [hstrip, hescaped] at hread
  exact hread.gives

theorem mustache_leads {m : Interpolation} {d : Tree.Dynamic} (ha : a.Ready)
    (hd : Tree.dynamic src m = .ok d) :
    Assembly.statement src a (.mustache m) = .ok (a.append (.dynamic d)) := by
  rw [Assembly.statement, ha.isComment, if_neg Bool.false_ne_true, hd]
  show a.place src d = _
  unfold Assembly.place
  rw [ha.state]

theorem grows_append (ha : a.Ready) (node : Tree.Statement) :
    a.Grows [node] (a.append node) :=
  ⟨ha.append node, Tree.frames_append _ _⟩

private theorem opens_openBraces (trusting : Bool) (cs : List Char) :
    opens (openBraces trusting ++ cs) = true := by
  cases trusting <;> rfl

theorem braces_read {trusting : Bool} {inner : List Char} {c : Char} {cs : List Char}
    {ts : List Token} {call : Mustache.Call Mustache.Expression} {d : Tree.Dynamic} (ha : a.Ready)
    (hinner : inner ++ (closeBraces trusting ++ rest) = c :: cs) (hc : startsCall c = true)
    (helse : startsElse (c :: cs) = false)
    (hscans : Scans (.tag trusting) (p.after (openBraces trusting)) inner ts (.tag trusting)
      (closeBraces trusting ++ rest))
    (hcall : ∀ next, EndsCall next → Gives (Mustache.call (ts ++ next)) call next)
    (hd : Tree.dynamic src ⟨call, !trusting, {},
      ⟨p, p.after (openBraces trusting ++ inner ++ closeBraces trusting)⟩⟩ = .ok d) :
    ∃ ts s, StatementReads src p a (openBraces trusting ++ inner ++ closeBraces trusting) rest
      (a.append (.dynamic d)) ts s := by
  have hopen : Scans .text p (openBraces trusting) _ (.tag trusting)
      (inner ++ (closeBraces trusting ++ rest)) := hinner ▸ scans_openBraces trusting hc helse
  have hclose : Scans (.tag trusting) ((p.after (openBraces trusting)).after inner)
      (closeBraces trusting) _ .text rest := scans_closeBraces trusting
  rw [← List.append_assoc] at hopen
  have hall := hopen.append (hscans.append hclose)
  rw [← List.append_assoc] at hall
  have hafter : ((p.after (openBraces trusting)).after inner).after (closeBraces trusting)
      = p.after (openBraces trusting ++ inner ++ closeBraces trusting) := by
    rw [Position.after_append, Position.after_append]
  refine ⟨_, .mustache ⟨call, !trusting, {},
    ⟨p, p.after (openBraces trusting ++ inner ++ closeBraces trusting)⟩⟩, fun more => ?_, hall,
    fun next => ?_, fun next => ?_, rfl, rfl, mustache_leads ha hd⟩
  · rw [List.append_assoc, List.append_assoc]
    exact opens_openBraces trusting _
  · rw [← hafter, List.singleton_append, List.cons_append, List.append_assoc]
    exact mustache_gives trusting rfl rfl rfl rfl (hcall _ (endsCall_closer trusting rfl))
  · cases trusting <;> rfl

theorem mustache_reads {trusting : Bool} {call : Call} (hwf : call.WellFormed false) (ha : a.Ready)
    (hstands : src.Stands p start ((Node.mustache trusting call).written ++ rest)) :
    ∃ a' ts s, StatementReads src p a (Node.mustache trusting call).written rest a' ts s
      ∧ a.Grows ((Node.mustache trusting call).statementAt start).toList a' := by
  have hinside : src.Stands p start
      (openBraces trusting ++ (call.text ++ (closeBraces trusting ++ rest))) := by
    simpa [Node.written] using hstands
  have hends : (closeBraces trusting ++ rest).head?.all endsLiteral = true := by
    cases trusting <;> rfl
  obtain ⟨c, cs, hcs, hc, helse⟩ := call_starts hwf hends
  obtain ⟨ts, ts', call', path, hcall, -, hnames⟩ := Call.reads hwf hends hinside.after
  obtain rfl := hnames rfl
  have hscans : Scans (.tag trusting) _ call.text (ts ++ []) (.tag trusting) _ := hcall.scans
  rw [List.append_nil] at hscans
  have hdynamic : Tree.dynamic src
      ⟨call', !trusting, {}, ⟨p, p.after (Node.mustache trusting call).written⟩⟩
      = .ok (.call ⟨call.treeAt (start + byteLength (openBraces trusting)), trusting, {},
        span start (Node.mustache trusting call).written⟩) := by
    unfold Tree.dynamic
    rw [hcall.callee, hcall.calleeTree]
    simp only [hcall.tree, hstands.spanFor, Bool.not_not]
    rfl
  obtain ⟨ts, s, hreads⟩ := braces_read ha hcs hc helse hscans hcall.gives hdynamic
  exact ⟨_, _, _, hreads, grows_append ha _⟩

theorem call_gives {ts next : List Token} {e : Mustache.Expression}
    (hexpression : Gives (Mustache.expression (ts ++ next)) e next) (hnext : EndsCall next) :
    Gives (Mustache.call (ts ++ next)) ⟨e, [], none⟩ next := by
  exact (Call.Read.intro (expression_gives_iff.mp hexpression) (.nil hnext.endsParams)
    (pairs_gives_iff.mp hnext.pairs)).gives

theorem literal_reads {c : Constant} (hwf : c.WellFormed) (ha : a.Ready)
    (hstands : src.Stands p start ((Node.literal c).written ++ rest)) :
    ∃ a' ts s, StatementReads src p a (Node.literal c).written rest a' ts s
      ∧ a.Grows ((Node.literal c).statementAt start).toList a' := by
  have hinside : src.Stands p start
      (openBraces false ++ (c.text ++ (closeBraces false ++ rest))) := by
    simpa [Node.written] using hstands
  have hends : (closeBraces false ++ rest).head?.all endsLiteral = true := rfl
  obtain ⟨d, ds, htext, hd, hne⟩ := constant_starts hwf
  have hinner : c.text ++ (closeBraces false ++ rest)
      = d :: (ds ++ (closeBraces false ++ rest)) := by
    rw [htext]
    rfl
  have hconstant : Reads src false (p.after (openBraces false)) c.text _ _ _ _ :=
    constant_reads hwf hends hinside.after
  have hdynamic : Tree.dynamic src ⟨⟨.literal c.literal ⟨p.after (openBraces false),
        (p.after (openBraces false)).after c.text⟩, [], none⟩, !false, {},
        ⟨p, p.after (Node.literal c).written⟩⟩
      = .ok (.literal ⟨c.literal, span (start + 2) c.text, false, {},
        span start (Node.literal c).written⟩) := by
    have htree := hconstant.tree
    have hbytes : byteLength (openBraces false) = 2 := rfl
    rw [hbytes] at htree
    unfold Tree.dynamic
    rw [htree]
    simp only [hstands.spanFor]
    rfl
  obtain ⟨ts, s, hreads⟩ := braces_read ha hinner hd (startsElse_of_ne hne _) hconstant.scans
    (fun next hnext => call_gives (hconstant.gives next hnext.unjoined) hnext) hdynamic
  exact ⟨_, _, _, hreads, grows_append ha _⟩

end HtmlTemplate.Draft

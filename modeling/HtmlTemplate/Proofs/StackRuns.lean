import HtmlTemplate.Proofs.Faults
import HtmlTemplate.Tree.StackSession
import Mathlib.Data.List.Induction

/-! Runs of operations on a stack of open elements. Numbers are given out once, so asking for a
frame by its number gets it just while it is on top: as it was pushed, with what has been made of
it while it was on top and nothing else. -/

namespace HtmlTemplate.Tree

/-- What can be done with a stack. -/
inductive StackUse where
  | push (frame : Frame)
  | append (node : Statement)
  /-- Changes the frame on top where it is. -/
  | edit (f : Frame → Frame)
  | pop
  | popElement
  | popExpecting (id : Nat)

def StackUse.change? : StackUse → Option (Frame → Frame)
  | .append node => some (Frame.mapChildren (· ++ [node]))
  | .edit f => some f
  | _ => none

def Frame.changed (frame : Frame) (changes : List (Frame → Frame)) : Frame :=
  changes.foldl (fun frame f => f frame) frame

@[simp] theorem Frame.changed_nil (frame : Frame) : frame.changed [] = frame := rfl

theorem Frame.changed_append (frame : Frame) (fs gs : List (Frame → Frame)) :
    frame.changed (fs ++ gs) = (frame.changed fs).changed gs :=
  List.foldl_append

/-- A change that leaves everything but the children alone. -/
def OnlyChildren (f : Frame → Frame) : Prop :=
  ∀ frame, f frame = frame.mapChildren fun _ => (f frame).children

theorem onlyChildren_mapChildren (f : List Statement → List Statement) :
    OnlyChildren (Frame.mapChildren f) := by
  intro frame
  cases frame <;> rfl

theorem Frame.changed_onlyChildren (frame : Frame) {changes : List (Frame → Frame)}
    (h : ∀ f ∈ changes, OnlyChildren f) :
    frame.changed changes = frame.mapChildren fun _ => (frame.changed changes).children := by
  induction changes generalizing frame with
  | nil => cases frame <;> rfl
  | cons f changes ih =>
    obtain ⟨hf, hchanges⟩ := List.forall_mem_cons.mp h
    have hrest := ih (f frame) hchanges
    rw [hf frame] at hrest
    have hsame : frame.changed (f :: changes)
        = (frame.mapChildren fun _ => (f frame).children).changed changes := by
      rw [← hf frame]
      rfl
    rw [hsame, hrest]
    cases frame <;> rfl

namespace OpenElements

variable {src : Source} {s : OpenElements} {u : StackUse} {us : List StackUse}

/-- The stack after an operation. One that fails leaves it as it is. -/
def use (src : Source) (s : OpenElements) : StackUse → OpenElements
  | .push frame => (s.push frame).2
  | .append node => s.append node
  | .edit f => s.mapTop f
  | .pop => s.pop?.elim s (·.2)
  | .popElement => s.popElement?.elim s (·.2)
  | .popExpecting id =>
    match s.popExpecting src id with
    | .ok (_, s) => s
    | .error _ => s

/-- A new stack after some operations. -/
def after (src : Source) (us : List StackUse) : OpenElements :=
  us.foldl (use src) {}

@[simp] theorem after_nil (src : Source) : after src [] = {} := rfl

@[simp] theorem after_concat (src : Source) (us : List StackUse) (u : StackUse) :
    after src (us ++ [u]) = (after src us).use src u := by
  rw [after, List.foldl_append]
  rfl

/-- The numbers that a run gives out, in order. -/
def issued (src : Source) (s : OpenElements) : List StackUse → List Nat
  | [] => []
  | .push frame :: us => (s.push frame).1 :: issued src (s.use src (.push frame)) us
  | u :: us => issued src (s.use src u) us

/-- A session answers with the stack that some operations lead to. -/
theorem perform_uses (src : Source) (s : OpenElements) (a : StackAction) :
    ∃ us : List StackUse, (s.perform src a).2 = us.foldl (use src) s := by
  cases a with
  | push frame => exact ⟨[.push frame], rfl⟩
  | append node => exact ⟨[.append node], rfl⟩
  | insertFirst node => exact ⟨[.edit (Frame.mapChildren (node :: ·))], rfl⟩
  | pop =>
    refine ⟨[.pop], ?_⟩
    simp only [perform, List.foldl_cons, List.foldl_nil, use]
    cases s.pop? <;> rfl
  | closeElement stop =>
    cases h : s.popElement? with
    | none => exact ⟨[], by simp [perform, h]⟩
    | some popped =>
      exact ⟨[.popElement, .append (.element (popped.1.finish stop))], by simp [perform, use, h]⟩
  | popExpecting id =>
    refine ⟨[.popExpecting id], ?_⟩
    simp only [perform, List.foldl_cons, List.foldl_nil, use]
    cases s.popExpecting src id <;> rfl

theorem use_cases (src : Source) (s : OpenElements) (u : StackUse) :
    (∃ frame, u = .push frame)
      ∨ (∃ f, u.change? = some f ∧ s.use src u = s.mapTop f)
      ∨ u.change? = none ∧ (s.use src u).nextId = s.nextId
        ∧ ((s.use src u).frames = s.frames ∨ (s.use src u).frames = s.frames.tail) := by
  obtain ⟨frames, nextId⟩ := s
  cases u with
  | push frame => exact .inl ⟨frame, rfl⟩
  | append node => exact .inr (.inl ⟨_, rfl, rfl⟩)
  | edit f => exact .inr (.inl ⟨f, rfl, rfl⟩)
  | pop =>
    refine .inr (.inr ⟨rfl, ?_⟩)
    cases frames with
    | nil => exact ⟨rfl, .inl rfl⟩
    | cons top frames => exact ⟨rfl, .inr rfl⟩
  | popElement =>
    refine .inr (.inr ⟨rfl, ?_⟩)
    rcases frames with _ | ⟨⟨id, _ | e⟩, frames⟩
    · exact ⟨rfl, .inl rfl⟩
    · exact ⟨rfl, .inl rfl⟩
    · exact ⟨rfl, .inr rfl⟩
  | popExpecting id =>
    refine .inr (.inr ⟨rfl, ?_⟩)
    rcases frames with _ | ⟨⟨top, frame⟩, frames⟩
    · exact ⟨rfl, .inl rfl⟩
    · by_cases htop : top = id
      · simp [use, popExpecting, htop]
      · cases frame <;> simp [use, popExpecting, htop, fault]

structure Numbered (s : OpenElements) : Prop where
  order : (s.frames.map (·.1)).Pairwise (· > ·)
  next : ∀ id ∈ s.frames.map (·.1), id < s.nextId

theorem Numbered.use (h : s.Numbered) (u : StackUse) : (s.use src u).Numbered := by
  obtain ⟨horder, hnext⟩ := h
  obtain ⟨frame, rfl⟩ | ⟨f, -, huse⟩ | ⟨-, hid, hframes | hframes⟩ := use_cases src s u
  · exact ⟨List.pairwise_cons.mpr ⟨hnext, horder⟩,
      List.forall_mem_cons.mpr ⟨Nat.lt_succ_self _, fun id h => Nat.lt_succ_of_lt (hnext id h)⟩⟩
  · rw [huse]
    obtain ⟨_ | ⟨top, frames⟩, nextId⟩ := s
    · exact ⟨horder, hnext⟩
    · exact ⟨horder, hnext⟩
  · exact ⟨hframes ▸ horder, hframes ▸ hid ▸ hnext⟩
  · refine ⟨?_, ?_⟩
    · rw [hframes, List.map_tail]
      exact horder.tail
    · rw [hframes, List.map_tail, hid]
      exact fun id h => hnext id (List.mem_of_mem_tail h)

theorem numbered_after (src : Source) (us : List StackUse) : (after src us).Numbered := by
  induction us using List.reverseRecOn with
  | nil => exact ⟨.nil, List.forall_mem_nil _⟩
  | append_singleton us u ih =>
    rw [after_concat]
    exact ih.use u

private theorem nextId_le_use (src : Source) (s : OpenElements) (u : StackUse) :
    s.nextId ≤ (s.use src u).nextId := by
  obtain ⟨frame, rfl⟩ | ⟨f, -, huse⟩ | ⟨-, hid, -⟩ := use_cases src s u
  · exact Nat.le_succ _
  · rw [huse]
    obtain ⟨_ | ⟨top, frames⟩, nextId⟩ := s <;> exact Nat.le_refl _
  · exact Nat.le_of_eq hid.symm

theorem issued_increasing (src : Source) (s : OpenElements) (us : List StackUse) :
    (issued src s us).Pairwise (· < ·) ∧ ∀ id ∈ issued src s us, s.nextId ≤ id := by
  induction us generalizing s with
  | nil => exact ⟨.nil, List.forall_mem_nil _⟩
  | cons u us ih =>
    obtain ⟨horder, hle⟩ := ih (s.use src u)
    cases u with
    | push frame =>
      refine ⟨List.pairwise_cons.mpr ⟨hle, horder⟩, List.forall_mem_cons.mpr ⟨Nat.le_refl _, ?_⟩⟩
      exact fun id h => Nat.le_of_lt (hle id h)
    | _ => exact ⟨horder, fun id h => Nat.le_trans (nextId_le_use src s _) (hle id h)⟩

/-- The changes made while the stack has some height. -/
def changesAt (src : Source) (height : Nat) (s : OpenElements) :
    List StackUse → List (Frame → Frame)
  | [] => []
  | u :: us =>
    (if s.size = height then u.change?.toList else []) ++ changesAt src height (s.use src u) us

theorem changesAt_concat (src : Source) (height : Nat) (s : OpenElements) (us : List StackUse)
    (u : StackUse) :
    changesAt src height s (us ++ [u]) = changesAt src height s us
      ++ if (us.foldl (use src) s).size = height then u.change?.toList else [] := by
  induction us generalizing s with
  | nil => exact List.append_nil _
  | cons v us ih =>
    rw [List.cons_append, changesAt, ih, changesAt, List.append_assoc]
    rfl

/-- A frame that was pushed after some operations is still there after more: ever since, the
stack has been higher than before. -/
def Kept (src : Source) (before : List StackUse) (pushed : Frame) (since : List StackUse) : Prop :=
  ∀ part, part <+: since →
    (after src before).size < (after src (before ++ .push pushed :: part)).size

/-- A frame that was pushed is on top: everything pushed later is gone again. -/
structure OnTop (src : Source) (before : List StackUse) (pushed : Frame) (since : List StackUse) :
    Prop where
  kept : Kept src before pushed since
  height : (after src (before ++ .push pushed :: since)).size = (after src before).size + 1

/-- What has been made of a frame that was pushed after some operations while it was on top. -/
def changesSince (src : Source) (before : List StackUse) (pushed : Frame)
    (since : List StackUse) : List (Frame → Frame) :=
  changesAt src ((after src before).size + 1) (after src (before ++ [.push pushed])) since

variable {before since : List StackUse} {pushed frame : Frame} {id : Nat}
  {below : List (Nat × Frame)}

theorem after_since_concat (src : Source) (before : List StackUse) (pushed : Frame)
    (since : List StackUse) (u : StackUse) :
    after src (before ++ .push pushed :: (since ++ [u]))
      = (after src (before ++ .push pushed :: since)).use src u := by
  rw [← after_concat, List.append_assoc, List.cons_append]

private theorem changesSince_concat (src : Source) (before : List StackUse) (pushed : Frame)
    (since : List StackUse) (u : StackUse) :
    changesSince src before pushed (since ++ [u]) = changesSince src before pushed since
      ++ if (after src (before ++ .push pushed :: since)).size = (after src before).size + 1 then
        u.change?.toList else [] := by
  have hafter : since.foldl (use src) (after src (before ++ [.push pushed]))
      = after src (before ++ .push pushed :: since) := by
    simp only [after, List.foldl_append, List.foldl_cons, List.foldl_nil]
  rw [changesSince, changesAt_concat, hafter]
  rfl

theorem Kept.of_concat (h : Kept src before pushed (since ++ [u])) :
    Kept src before pushed since :=
  fun part hpart => h part (hpart.trans (List.prefix_append _ _))

theorem Kept.concat (h : Kept src before pushed since)
    (hsize : (after src before).size
      < (after src (before ++ .push pushed :: (since ++ [u]))).size) :
    Kept src before pushed (since ++ [u]) := by
  intro part hpart
  rcases List.prefix_concat_iff.mp hpart with rfl | hpart
  · exact hsize
  · exact h part hpart

private theorem use_frames {above : List (Nat × Frame)}
    (h : s.frames = above ++ (id, frame) :: below)
    (hsize : below.length < (s.use src u).size) :
    ∃ above', (s.use src u).frames = above' ++ (id, frame.changed
      (if s.size = below.length + 1 then u.change?.toList else [])) :: below := by
  obtain ⟨frames, nextId⟩ := s
  obtain rfl : frames = _ := h
  have htop : (OpenElements.mk (above ++ (id, frame) :: below) nextId).size = below.length + 1
      ↔ above = [] := by
    simp only [size, List.length_append, List.length_cons, ← List.length_eq_zero_iff]
    omega
  simp only [htop]
  obtain ⟨pushed, rfl⟩ | ⟨f, hf, huse⟩ | ⟨hnone, -, hframes | hframes⟩ := use_cases src _ u
  · exact ⟨(nextId, pushed) :: above, by simp [use, push, StackUse.change?]⟩
  · rw [huse, hf]
    cases above with
    | nil => exact ⟨[], rfl⟩
    | cons top above => exact ⟨(top.1, f top.2) :: above, rfl⟩
  · exact ⟨above, by simp [hframes, hnone]⟩
  · cases above with
    | nil =>
      rw [size, hframes] at hsize
      exact absurd hsize (Nat.lt_irrefl _)
    | cons top above => exact ⟨above, by rw [hframes, if_neg (List.cons_ne_nil _ _)]; rfl⟩

theorem Kept.frames (h : Kept src before pushed since) :
    ∃ above, (after src (before ++ .push pushed :: since)).frames
      = above ++ ((after src before).nextId, pushed.changed (changesSince src before pushed since))
        :: (after src before).frames := by
  induction since using List.reverseRecOn with
  | nil => exact ⟨[], by rw [after_concat]; rfl⟩
  | append_singleton since u ih =>
    obtain ⟨above, hframes⟩ := ih h.of_concat
    have hsize := h _ (List.prefix_refl _)
    rw [after_since_concat] at hsize ⊢
    obtain ⟨above', hframes'⟩ := use_frames hframes hsize
    refine ⟨above', ?_⟩
    rw [hframes', changesSince_concat, Frame.changed_append]
    rfl

private theorem exists_kept {us : List StackUse} (above : List (Nat × Frame))
    (h : (after src us).frames = above ++ (id, frame) :: below) :
    ∃ before pushed since, us = before ++ .push pushed :: since
      ∧ (after src before).nextId = id ∧ (after src before).frames = below
      ∧ Kept src before pushed since := by
  induction us using List.reverseRecOn generalizing above frame with
  | nil => simp at h
  | append_singleton us u ih =>
    rw [after_concat] at h
    -- The frame was there before, if not at the same height of the list.
    have holder (above' : List (Nat × Frame)) {frame' : Frame}
        (h' : (after src us).frames = above' ++ (id, frame') :: below) :
        ∃ before pushed since, us ++ [u] = before ++ .push pushed :: since
          ∧ (after src before).nextId = id ∧ (after src before).frames = below
          ∧ Kept src before pushed since := by
      obtain ⟨before, pushed, since, rfl, hid, hbelow, hkept⟩ := ih above' h'
      refine ⟨before, pushed, since ++ [u], by simp, hid, hbelow, hkept.concat ?_⟩
      rw [after_since_concat, size, size, h, hbelow, List.length_append, List.length_cons]
      omega
    obtain ⟨pushed, rfl⟩ | ⟨f, -, huse⟩ | ⟨-, -, hframes | hframes⟩ :=
      use_cases src (after src us) u
    · cases above with
      | nil =>
        obtain ⟨heq, hbelow⟩ := List.cons.inj h
        refine ⟨us, pushed, [], rfl, congrArg Prod.fst heq, hbelow, fun part hpart => ?_⟩
        obtain rfl := List.prefix_nil.mp hpart
        rw [after_concat]
        exact Nat.lt_succ_self _
      | cons top above => exact holder above (List.cons.inj h).2
    · rw [huse] at h
      cases hold : (after src us).frames with
      | nil => simp [mapTop, hold] at h
      | cons top frames =>
        rw [mapTop, hold] at h
        cases above with
        | nil =>
          obtain ⟨heq, rfl⟩ := List.cons.inj h
          obtain rfl := congrArg Prod.fst heq
          exact holder [] hold
        | cons top' above =>
          obtain ⟨-, rfl⟩ := List.cons.inj h
          exact holder (top :: above) hold
    · exact holder above (hframes ▸ h)
    · rw [hframes] at h
      cases hold : (after src us).frames with
      | nil => simp [hold] at h
      | cons top frames =>
        rw [hold] at h
        exact holder (top :: above) (hold.trans (congrArg (top :: ·) h))

private theorem popExpecting_eq_ok {t : OpenElements} :
    s.popExpecting src id = .ok (frame, t) ↔
      s.frames = (id, frame) :: t.frames ∧ t.nextId = s.nextId := by
  obtain ⟨_ | ⟨⟨top, frame'⟩, frames⟩, nextId⟩ := s
  · simp [popExpecting, fault]
  · obtain ⟨frames', nextId'⟩ := t
    by_cases htop : top = id
    · simp [popExpecting, htop, and_assoc, eq_comm]
    · cases frame' <;> simp [popExpecting, htop, fault]

theorem OnTop.frames (h : OnTop src before pushed since) :
    (after src (before ++ .push pushed :: since)).frames
      = ((after src before).nextId, pushed.changed (changesSince src before pushed since))
        :: (after src before).frames := by
  obtain ⟨above, hframes⟩ := h.kept.frames
  have hheight := h.height
  rw [size, hframes, List.length_append, List.length_cons, size] at hheight
  obtain rfl := List.length_eq_zero_iff.mp (Nat.add_eq_right.mp (by omega) : above.length = 0)
  exact hframes

private theorem popExpecting_after {t : OpenElements} :
    (after src us).popExpecting src id = .ok (frame, t) ↔
      ∃ before pushed since, us = before ++ .push pushed :: since
        ∧ ((after src before).push pushed).1 = id ∧ OnTop src before pushed since
        ∧ frame = pushed.changed (changesSince src before pushed since)
        ∧ t = ⟨(after src before).frames, (after src us).nextId⟩ := by
  rw [popExpecting_eq_ok]
  constructor
  · rintro ⟨hframes, hnext⟩
    obtain ⟨before, pushed, since, rfl, hid, hbelow, hkept⟩ := exists_kept [] hframes
    have honTop : OnTop src before pushed since :=
      ⟨hkept, by rw [size, size, hframes, hbelow, List.length_cons]⟩
    have htop := honTop.frames.symm.trans hframes
    refine ⟨before, pushed, since, rfl, hid, honTop, ?_, ?_⟩
    · exact (congrArg Prod.snd (List.cons.inj htop).1).symm
    · rw [hbelow, ← hnext]
  · rintro ⟨before, pushed, since, rfl, rfl, honTop, rfl, rfl⟩
    exact ⟨honTop.frames, rfl⟩

private theorem exists_edit_of_mem_changesAt {height : Nat} {f : Frame → Frame}
    (h : f ∈ changesAt src height s us) : OnlyChildren f ∨ .edit f ∈ us := by
  induction us generalizing s with
  | nil => cases h
  | cons u us ih =>
    rcases List.mem_append.mp h with h | h
    · split at h
      · cases u with
        | append node =>
          obtain rfl := List.mem_singleton.mp h
          exact .inl (onlyChildren_mapChildren _)
        | edit g =>
          obtain rfl := List.mem_singleton.mp h
          exact .inr (List.mem_cons_self ..)
        | _ => cases h
      · cases h
    · exact (ih h).imp_right (List.mem_cons_of_mem _)

private theorem error_of_popExpecting {e : SyntaxError} (h : s.popExpecting src id = .error e) :
    ((∃ tag, e.message = (Fault.unclosedElement tag).message) ↔ ∃ el, s.top? = some (.element el))
      ∧ ∀ el, s.top? = some (.element el) →
        e = src.error (Fault.unclosedElement el.tag).message el.startTag := by
  have hunbalanced : ¬∃ tag, Fault.unbalancedBody.message = (Fault.unclosedElement tag).message :=
    fun ⟨tag, htag⟩ => message_ne_unbalanced (f := .unclosedElement tag) (by simp) htag.symm
  unfold popExpecting at h
  unfold top?
  split at h
  · next top frame frames hframes =>
    rw [hframes]
    split at h
    · cases h
    · cases frame with
      | element el =>
        obtain rfl := Except.error.inj h
        exact ⟨iff_of_true ⟨el.tag, rfl⟩ ⟨el, rfl⟩, by rintro _ ⟨⟩; rfl⟩
      | body children =>
        obtain rfl := Except.error.inj h
        exact ⟨iff_of_false hunbalanced (by simp), by simp⟩
  · next hframes =>
    rw [hframes]
    obtain rfl := Except.error.inj h
    exact ⟨iff_of_false hunbalanced (by simp), by simp⟩

private theorem popElement?_eq_none (h : ∀ el, s.top? ≠ some (.element el)) :
    s.popElement? = none := by
  obtain ⟨_ | ⟨⟨id, _ | el⟩, frames⟩, nextId⟩ := s
  · rfl
  · rfl
  · exact absurd rfl (h el)

/-- What holds of a new stack after any operations: the numbers on it increase towards the top
and none is given out twice. Exactly a frame on top is given back for its number, with the
changes made to it since its push while it was on top, and the stack is then what it was below
that frame. If no change touches more than children, all but the children is as it was pushed.
What fails changes nothing, and names an element just if one is on top. -/
theorem stack_runs (src : Source) (us : List StackUse) :
    ((after src us).frames.reverse.map (·.1)).Pairwise (· < ·)
      ∧ (issued src {} us).Nodup
      ∧ (∀ id frame t, (after src us).popExpecting src id = .ok (frame, t) ↔
          ∃ before pushed since, us = before ++ .push pushed :: since
            ∧ ((after src before).push pushed).1 = id ∧ OnTop src before pushed since
            ∧ frame = pushed.changed (changesSince src before pushed since)
            ∧ t = ⟨(after src before).frames, (after src us).nextId⟩)
      ∧ (∀ before pushed since, us = before ++ .push pushed :: since →
          (∀ f, .edit f ∈ since → OnlyChildren f) →
          pushed.changed (changesSince src before pushed since)
            = pushed.mapChildren fun _ =>
                (pushed.changed (changesSince src before pushed since)).children)
      ∧ (∀ id e, (after src us).popExpecting src id = .error e →
          after src (us ++ [.popExpecting id]) = after src us
            ∧ ((∃ tag, e.message = (Fault.unclosedElement tag).message) ↔
                ∃ el, (after src us).top? = some (.element el))
            ∧ ∀ el, (after src us).top? = some (.element el) →
                e = src.error (Fault.unclosedElement el.tag).message el.startTag)
      ∧ ((∀ el, (after src us).top? ≠ some (.element el)) →
          (after src us).popElement? = none
            ∧ after src (us ++ [.popElement]) = after src us) := by
  refine ⟨?_, ?_, fun _ _ _ => popExpecting_after, ?_, ?_, ?_⟩
  · rw [List.map_reverse, List.pairwise_reverse]
    exact (numbered_after src us).order
  · exact (issued_increasing src {} us).1.imp Nat.ne_of_lt
  · intro before pushed since _ hedits
    exact pushed.changed_onlyChildren fun f hf =>
      (exists_edit_of_mem_changesAt hf).elim id (hedits f)
  · intro id e he
    exact ⟨by rw [after_concat, use, he], error_of_popExpecting he⟩
  · intro htop
    have hnone := popElement?_eq_none htop
    exact ⟨hnone, by rw [after_concat, use, hnone]; rfl⟩

/-- A body comes back for its number once the element that was opened in it has ended; before
that the element is named. -/
theorem stack_runs_body :
    (after ⟨"a<b>".toList, none⟩
        [.push (.body []), .append (.text ⟨['a'], ⟨0, 1⟩⟩),
          .push (.element ⟨['b'], false, [], [], [], [], [], ⟨1, 4⟩⟩), .popElement,
          .edit (Frame.mapChildren List.reverse)]).popExpecting ⟨"a<b>".toList, none⟩ 0
        = .ok (.body [.text ⟨['a'], ⟨0, 1⟩⟩], ⟨[], 2⟩)
      ∧ ∃ e, (after ⟨"a<b>".toList, none⟩ [.push (.body []),
          .push (.element ⟨['b'], false, [], [], [], [], [], ⟨1, 4⟩⟩)]).popExpecting
            ⟨"a<b>".toList, none⟩ 0 = .error e
          ∧ e.message = (Fault.unclosedElement ['b']).message ∧ e.span = ⟨1, 4⟩ := by
  constructor
  · refine ((stack_runs _ _).2.2.1 0 _ _).mpr ⟨[], _, _, rfl, rfl, ⟨?_, rfl⟩, rfl, rfl⟩
    intro part hpart
    simp only [List.prefix_cons_iff, List.prefix_nil] at hpart
    rcases hpart with rfl | ⟨_, rfl, rfl | ⟨_, rfl, rfl | ⟨_, rfl, rfl | ⟨_, rfl, rfl⟩⟩⟩⟩ <;> decide
  · refine ⟨_, rfl, ?_⟩
    obtain ⟨-, -, herror⟩ := (stack_runs ⟨"a<b>".toList, none⟩ [.push (.body []),
      .push (.element ⟨['b'], false, [], [], [], [], [], ⟨1, 4⟩⟩)]).2.2.2.2.1 0 _ rfl
    rw [herror _ rfl]
    exact ⟨rfl, rfl⟩

end OpenElements

end HtmlTemplate.Tree

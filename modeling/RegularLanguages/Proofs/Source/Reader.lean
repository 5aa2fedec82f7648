import RegularLanguages.Proofs.Checking
import RegularLanguages.Source.Grammar
import RegularLanguages.Source.Tokenization

/-!
# Reading token by token

A reader takes one token after the other and always knows whether the next one may come. If it can
be brought to an end from wherever it is, then the tokens it has taken are those with which some
description begins; so the first token that it refuses is the first one with which none goes on.

* `Reader` -- a reader by its moves; `Reader.Completes` says which tokens bring it to an end;
* `Reader.exists_section`, `Reader.completes_section` -- a section of a description: any number of
  items, closed by `end`;
* `Unfinished`, `BreaksOff` -- the two ways in which tokens can fail to be a description;
* `Reader.Decides` -- a reader follows a grammar and never gets stuck;
* `Reader.Decides.viable_iff` -- **such a reader goes on as long as some description does**;
* `Reader.Decides.read_eq_ok_iff`, `Reader.Decides.read_unexpectedEnd_iff`,
  `Reader.Decides.read_complaint_iff` -- what it answers.
-/

namespace RegularLanguages.Source

/-! ## 1. Readers -/

/-- A reader by its moves. -/
structure Reader (σ δ : Type) where
  /-- Before the first token. -/
  start : σ
  /-- What one token does, if it may come. -/
  next : σ → Token → Option σ
  /-- The complaint about a token that may not come. -/
  complaint : σ → Located → Error
  /-- The result, if the tokens may end here. -/
  result : σ → Option δ
  /-- What has to come where they may not. -/
  expected : σ → Expected

namespace Reader

variable {σ δ : Type} (r : Reader σ δ)

/-- What one token does, or the complaint about it. -/
def step (p : σ) (t : Located) : Except Error σ :=
  match r.next p t.token with
  | some q => .ok q
  | none => .error (r.complaint p t)

/-- The result, or the complaint that the tokens end too early. -/
def finish (p : σ) : Except Error δ :=
  match r.result p with
  | some d => .ok d
  | none => .error (.unexpectedEnd (r.expected p))

/-- The result that some tokens have. -/
def read (ts : List Located) : Except Error δ := ts.foldlM r.step r.start >>= r.finish

/-- Some tokens bring the reader to an end with this result. -/
def Completes (p : σ) : List Token → δ → Prop
  | [], d => r.result p = some d
  | t :: ts, d => ∃ q, r.next p t = some q ∧ Completes q ts d

/-- Some tokens or other bring the reader to an end. -/
def Live (p : σ) : Prop := ∃ ts d, r.Completes p ts d

variable {r} {p q : σ} {t : Token} {ts us : List Token} {d : δ} {located : List Located}

/-- A reader is live where some token always brings it nearer to its end. -/
theorem live_of_nearer (toGo : σ → Nat) (h : ∀ p, (∃ d, r.result p = some d) ∨
    ∃ t q, r.next p t = some q ∧ toGo q < toGo p) (p : σ) : r.Live p := by
  induction hn : toGo p using Nat.strongRecOn generalizing p with
  | ind n ih =>
    rcases h p with ⟨d, hd⟩ | ⟨t, q, hq, hnearer⟩
    · exact ⟨[], d, hd⟩
    · obtain ⟨ts, d, hts⟩ := ih (toGo q) (hn ▸ hnearer) q rfl
      exact ⟨t :: ts, d, q, hq, hts⟩

theorem completes_append_iff :
    r.Completes p (ts ++ us) d ↔ ∃ q, ts.foldlM r.next p = some q ∧ r.Completes q us d := by
  induction ts generalizing p with
  | nil => exact ⟨fun h => ⟨p, rfl, h⟩, fun ⟨_, hq, h⟩ => Option.some.inj hq ▸ h⟩
  | cons t ts ih =>
    rw [List.cons_append, Completes, List.foldlM_cons]
    constructor
    · rintro ⟨p', hp', h⟩
      obtain ⟨q, hq, h⟩ := ih.1 h
      exact ⟨q, Option.bind_eq_some_iff.2 ⟨p', hp', hq⟩, h⟩
    · rintro ⟨q, hq, h⟩
      obtain ⟨p', hp', hq⟩ := Option.bind_eq_some_iff.1 hq
      exact ⟨p', hp', ih.2 ⟨q, hq, h⟩⟩

theorem completes_iff :
    r.Completes p ts d ↔ ∃ q, ts.foldlM r.next p = some q ∧ r.result q = some d := by
  have h : r.Completes p (ts ++ []) d ↔ _ := completes_append_iff
  rwa [List.append_nil] at h

/-! ## 2. Sections -/

/-- Between the two states a semicolon may come, and makes no other difference. -/
structure Optional (r : Reader σ δ) (p q : σ) : Prop where
  semicolon : r.next p .semicolon = some q
  no_second : r.next q .semicolon = none
  other : ∀ t, t ≠ .semicolon → r.next p t = r.next q t
  result : r.result p = r.result q

theorem Optional.completes_iff (h : r.Optional p q) : r.Completes p ts d ↔
    r.Completes q ts d ∨ ∃ us, ts = .semicolon :: us ∧ r.Completes q us d := by
  cases ts with
  | nil => simp [Completes, h.result]
  | cons t us =>
    by_cases ht : t = .semicolon
    · simp [Completes, ht, h.semicolon, h.no_second]
    · simp [Completes, ht, h.other t ht]

/-- The end of a section, where a semicolon may follow the word. -/
theorem Optional.end_iff (h : r.Optional p q) :
    (∃ us, ts = .word "end" :: us ∧ r.Completes p us d) ↔
      ∃ e us, IsEnd e ∧ ts = e ++ us ∧ r.Completes q us d := by
  constructor
  · rintro ⟨us, rfl, hus⟩
    rcases h.completes_iff.1 hus with hus | ⟨vs, rfl, hvs⟩
    · exact ⟨_, us, .plain, rfl, hus⟩
    · exact ⟨_, vs, .semicolon, rfl, hvs⟩
  · rintro ⟨e, us, he, rfl, hus⟩
    cases he with
    | plain => exact ⟨us, rfl, h.completes_iff.2 (Or.inl hus)⟩
    | semicolon => exact ⟨_, rfl, h.completes_iff.2 (Or.inr ⟨us, rfl, hus⟩)⟩

section Repetition

variable {α : Type} {P Q : List α → List Token → Prop} {f : α → List Token} {xs : List α}

/-- Where items can only be followed by a further one or by what comes last, there are some items
and then what comes last. -/
theorem exists_repetition (ok : α → Prop) (hf : ∀ x, ok x → f x ≠ [])
    (h : ∀ xs ts, P xs ts → Q xs ts ∨ ∃ x us, ok x ∧ ts = f x ++ us ∧ P (xs ++ [x]) us)
    (hP : P xs ts) : ∃ l us, (∀ x ∈ l, ok x) ∧ ts = l.flatMap f ++ us ∧ Q (xs ++ l) us := by
  -- by the number of tokens left: every item takes at least one of them
  induction hn : ts.length using Nat.strongRecOn generalizing xs ts with
  | ind n ih =>
    rcases h xs ts hP with hQ | ⟨x, us, hx, rfl, hus⟩
    · exact ⟨[], ts, nofun, rfl, (List.append_nil xs).symm ▸ hQ⟩
    · have hshorter : us.length < n := by
        have hpos : 0 < (f x).length := List.length_pos_iff.2 (hf x hx)
        rw [List.length_append] at hn
        omega
      obtain ⟨l, vs, hl, rfl, hQ⟩ := ih us.length hshorter hus rfl
      refine ⟨x :: l, vs, List.forall_mem_cons.2 ⟨hx, hl⟩, ?_, ?_⟩
      · rw [List.flatMap_cons, List.append_assoc]
      · rwa [List.append_cons]

theorem of_repetition (ok : α → Prop) {l : List α}
    (h : ∀ xs x us, ok x → P (xs ++ [x]) us → P xs (f x ++ us)) (hQ : ∀ xs us, Q xs us → P xs us)
    (hl : ∀ x ∈ l, ok x) (hus : Q (xs ++ l) us) : P xs (l.flatMap f ++ us) := by
  induction l generalizing xs with
  | nil => exact hQ xs us ((List.append_nil xs) ▸ hus)
  | cons x l ih =>
    rw [List.flatMap_cons, List.append_assoc]
    refine h xs x _ (hl x List.mem_cons_self) (ih (fun y hy => hl y (List.mem_cons_of_mem x hy)) ?_)
    rwa [← List.append_cons]

/-- A section that has been entered: some items, and the end of them all. -/
theorem exists_section (items : List α → σ) (ok : α → Prop) {closed opened : List α → σ}
    (hts : r.Completes (items []) ts d) (hf : ∀ x, ok x → f x ≠ [])
    (hopen : ∀ xs, r.Optional (closed xs) (opened xs))
    (h : ∀ xs ts, r.Completes (items xs) ts d →
      (∃ us, ts = .word "end" :: us ∧ r.Completes (closed xs) us d) ∨
        ∃ x us, ok x ∧ ts = f x ++ us ∧ r.Completes (items (xs ++ [x])) us d) :
    ∃ l e us, (∀ x ∈ l, ok x) ∧ IsEnd e ∧ ts = l.flatMap f ++ (e ++ us) ∧
      r.Completes (opened l) us d := by
  obtain ⟨l, vs, hl, rfl, hend⟩ := exists_repetition ok hf h hts
  obtain ⟨e, us, he, rfl, hus⟩ := (hopen _).end_iff.1 hend
  exact ⟨l, e, us, hl, he, rfl, hus⟩

theorem completes_section (items : List α → σ) (ok : α → Prop) {closed opened : List α → σ}
    {l : List α} {e : List Token} (hopen : ∀ xs, r.Optional (closed xs) (opened xs))
    (hend : ∀ xs, r.next (items xs) (.word "end") = some (closed xs))
    (h : ∀ xs x us, ok x → r.Completes (items (xs ++ [x])) us d →
      r.Completes (items xs) (f x ++ us) d)
    (hl : ∀ x ∈ l, ok x) (he : IsEnd e) (hus : r.Completes (opened l) us d) :
    r.Completes (items []) (l.flatMap f ++ (e ++ us)) d := by
  refine of_repetition ok (P := fun xs ts => r.Completes (items xs) ts d)
    (Q := fun xs ts => ∃ us, ts = .word "end" :: us ∧ r.Completes (closed xs) us d)
    h ?_ hl ((hopen _).end_iff.2 ⟨e, us, he, rfl, hus⟩)
  rintro xs _ ⟨us, rfl, hus⟩
  exact ⟨closed xs, hend xs, hus⟩

end Repetition

/-! ## 3. Reading -/

/-- What every token keeps of the tokens behind which it comes, all of them keep. -/
theorem of_foldlM_next {P : List Token → σ → Prop} (seen : List Token)
    (hnext : ∀ ts p t q, P ts p → r.next p t = some q → P (ts ++ [t]) q) (hp : P seen p)
    (h : ts.foldlM r.next p = some q) : P (seen ++ ts) q := by
  induction ts generalizing seen p with
  | nil =>
    cases h
    rwa [List.append_nil]
  | cons t ts ih =>
    obtain ⟨p', hp', hrest⟩ := Option.bind_eq_some_iff.1 h
    rw [List.append_cons]
    exact ih (seen ++ [t]) (hnext seen p t p' hp hp') hrest

theorem foldlM_step_eq_ok_iff : located.foldlM r.step p = .ok q ↔
    (located.map Located.token).foldlM r.next p = some q := by
  induction located generalizing p with
  | nil => simp [pure, Except.pure]
  | cons t located ih =>
    rw [List.foldlM_cons, List.map_cons, List.foldlM_cons, step]
    cases r.next p t.token with
    | none => exact ⟨nofun, nofun⟩
    | some p' => exact ih

theorem finish_eq_ok_iff : r.finish p = .ok d ↔ r.result p = some d := by
  unfold finish
  cases r.result p <;> simp

theorem read_eq_ok_iff_completes : r.read located = .ok d ↔
    r.Completes r.start (located.map Located.token) d := by
  rw [completes_iff, read, bind_eq_ok_iff]
  exact exists_congr fun p => and_congr foldlM_step_eq_ok_iff finish_eq_ok_iff

/-- A reader stops at a token that may not come behind those before it. -/
theorem foldlM_step_eq_error_iff {e : Error} : located.foldlM r.step p = .error e ↔
    ∃ before t after q, located = before ++ t :: after ∧
      (before.map Located.token).foldlM r.next p = some q ∧ r.next q t.token = none ∧
        e = r.complaint q t := by
  induction located generalizing p with
  | nil => simp [pure, Except.pure]
  | cons u located ih =>
    rw [List.foldlM_cons, step]
    constructor
    · intro h
      cases hnext : r.next p u.token with
      | none =>
        rw [hnext] at h
        cases h
        exact ⟨[], u, located, p, rfl, rfl, hnext, rfl⟩
      | some p' =>
        rw [hnext] at h
        obtain ⟨before, t, after, q, rfl, hbefore, hnone, he⟩ := ih.1 h
        refine ⟨u :: before, t, after, q, rfl, ?_, hnone, he⟩
        exact Option.bind_eq_some_iff.2 ⟨p', hnext, hbefore⟩
    · rintro ⟨before, t, after, q, hlocated, hbefore, hnone, rfl⟩
      cases before with
      | nil =>
        cases hlocated
        cases hbefore
        rw [hnone]
        rfl
      | cons v before =>
        cases hlocated
        obtain ⟨p', hnext, hbefore⟩ := Option.bind_eq_some_iff.1 hbefore
        rw [hnext]
        exact ih.2 ⟨before, t, after, q, rfl, hbefore, hnone, rfl⟩

end Reader

/-! ## 4. Viable tokens -/

/-- The tokens are no description, but only because they end too early. -/
def Unfinished {δ : Type} (grammar : List Token → δ → Prop) (ts : List Token) : Prop :=
  (∀ d, ¬ grammar ts d) ∧ ∃ rest d, rest ≠ [] ∧ grammar (ts ++ rest) d

/-- The token is the first one with which no description goes on; these are the tokens before it. -/
def BreaksOff {δ : Type} (grammar : List Token → δ → Prop) (ts before : List Located)
    (t : Located) : Prop :=
  (∃ after, ts = before ++ t :: after) ∧ Viable grammar (before.map Located.token) ∧
    ¬ Viable grammar ((before ++ [t]).map Located.token)

namespace Reader

variable {σ δ : Type} {r : Reader σ δ} {grammar : List Token → δ → Prop} {ts : List Token}
  {located before : List Located} {t : Located} {d : δ}

/-- A reader follows a grammar, and can be brought to an end from wherever it is. -/
structure Decides (r : Reader σ δ) (grammar : List Token → δ → Prop) : Prop where
  grammar_iff : ∀ ts d, grammar ts d ↔ r.Completes r.start ts d
  live : ∀ p, r.Live p

namespace Decides

variable (h : r.Decides grammar)

include h

/-- **The reader goes on as long as some description does.** -/
theorem viable_iff : Viable grammar ts ↔ ∃ p, ts.foldlM r.next r.start = some p := by
  constructor
  · rintro ⟨rest, d, hd⟩
    obtain ⟨p, hp, -⟩ := completes_append_iff.1 ((h.grammar_iff _ _).1 hd)
    exact ⟨p, hp⟩
  · rintro ⟨p, hp⟩
    obtain ⟨rest, d, hrest⟩ := h.live p
    exact ⟨rest, d, (h.grammar_iff _ _).2 (completes_append_iff.2 ⟨p, hp, hrest⟩)⟩

theorem breaksOff_iff : BreaksOff grammar located before t ↔ ∃ after p,
    located = before ++ t :: after ∧
      (before.map Located.token).foldlM r.next r.start = some p ∧ r.next p t.token = none := by
  unfold BreaksOff
  rw [h.viable_iff, h.viable_iff, List.map_append, List.foldlM_append]
  constructor
  · rintro ⟨⟨after, hlocated⟩, ⟨p, hp⟩, hnot⟩
    refine ⟨after, p, hlocated, hp, Option.eq_none_iff_forall_not_mem.2 fun q hq => hnot ⟨q, ?_⟩⟩
    simpa [hp] using hq
  · rintro ⟨after, p, hlocated, hp, hnone⟩
    refine ⟨⟨after, hlocated⟩, ⟨p, hp⟩, ?_⟩
    rintro ⟨q, hq⟩
    simp [hp, hnone] at hq

theorem unfinished_iff : Unfinished grammar ts ↔
    ∃ p, ts.foldlM r.next r.start = some p ∧ r.result p = none := by
  constructor
  · rintro ⟨hnot, rest, d, -, hd⟩
    obtain ⟨p, hp⟩ := h.viable_iff.1 ⟨rest, d, hd⟩
    refine ⟨p, hp, Option.eq_none_iff_forall_not_mem.2 fun e he => hnot e ?_⟩
    exact (h.grammar_iff ts e).2 (completes_iff.2 ⟨p, hp, he⟩)
  · rintro ⟨p, hp, hnone⟩
    refine ⟨fun d hd => ?_, ?_⟩
    · obtain ⟨q, hq, hresult⟩ := completes_iff.1 ((h.grammar_iff ts d).1 hd)
      cases hp.symm.trans hq
      cases hnone.symm.trans hresult
    · obtain ⟨rest, d, hrest⟩ := h.live p
      refine ⟨rest, d, ?_, (h.grammar_iff _ _).2 (completes_append_iff.2 ⟨p, hp, hrest⟩)⟩
      rintro rfl
      cases hnone.symm.trans hrest

/-- **What is read is what the grammar says.** -/
theorem read_eq_ok_iff : r.read located = .ok d ↔ grammar (located.map Located.token) d := by
  rw [h.grammar_iff, read_eq_ok_iff_completes]

theorem read_eq_error_iff {e : Error} : r.read located = .error e ↔
    (∃ before t p, BreaksOff grammar located before t ∧
      (before.map Located.token).foldlM r.next r.start = some p ∧ e = r.complaint p t) ∨
    ∃ p, (located.map Located.token).foldlM r.next r.start = some p ∧ r.result p = none ∧
      e = .unexpectedEnd (r.expected p) := by
  rw [read, bind_eq_error_iff, foldlM_step_eq_error_iff]
  refine or_congr ?_ (exists_congr fun p => and_congr foldlM_step_eq_ok_iff ?_)
  · constructor
    · rintro ⟨before, t, after, p, hlocated, hp, hnone, he⟩
      exact ⟨before, t, p, h.breaksOff_iff.2 ⟨after, p, hlocated, hp, hnone⟩, hp, he⟩
    · rintro ⟨before, t, p, hbreak, hp, he⟩
      obtain ⟨after, q, hlocated, hq, hnone⟩ := h.breaksOff_iff.1 hbreak
      cases hp.symm.trans hq
      exact ⟨before, t, after, p, hlocated, hp, hnone, he⟩
  · unfold finish
    cases r.result p <;> simp [eq_comm]

/-- **The end of the tokens is complained about** iff they are unfinished. -/
theorem read_unexpectedEnd_iff (hcomplaint : ∀ p t x, r.complaint p t ≠ .unexpectedEnd x) :
    (∃ x, r.read located = .error (.unexpectedEnd x)) ↔
      Unfinished grammar (located.map Located.token) := by
  rw [h.unfinished_iff]
  constructor
  · rintro ⟨x, hx⟩
    rcases h.read_eq_error_iff.1 hx with ⟨_, t, p, _, _, he⟩ | ⟨p, hp, hnone, -⟩
    · exact absurd he.symm (hcomplaint p t x)
    · exact ⟨p, hp, hnone⟩
  · rintro ⟨p, hp, hnone⟩
    exact ⟨_, h.read_eq_error_iff.2 (Or.inr ⟨p, hp, hnone, rfl⟩)⟩

/-- **A token is complained about** iff it is the first one with which no description goes on; what
is complained about is known from the tokens before it. -/
theorem read_complaint_iff {β : Type} (f : β → Error) (C : List Token → Located → Prop)
    (hf : ∀ y x, f y ≠ .unexpectedEnd x)
    (hC : ∀ ts t p, ts.foldlM r.next r.start = some p → ((∃ y, r.complaint p t = f y) ↔ C ts t)) :
    (∃ y, r.read located = .error (f y)) ↔
      ∃ before t, BreaksOff grammar located before t ∧ C (before.map Located.token) t := by
  constructor
  · rintro ⟨y, hy⟩
    rcases h.read_eq_error_iff.1 hy with ⟨before, t, p, hbreak, hp, he⟩ | ⟨p, -, -, he⟩
    · exact ⟨before, t, hbreak, (hC _ t p hp).1 ⟨y, he.symm⟩⟩
    · exact absurd he (hf y _)
  · rintro ⟨before, t, hbreak, ht⟩
    obtain ⟨_, p, -, hp, -⟩ := h.breaksOff_iff.1 hbreak
    obtain ⟨y, hy⟩ := (hC _ t p hp).2 ht
    exact ⟨y, h.read_eq_error_iff.2 (Or.inl ⟨before, t, p, hbreak, hp, hy.symm⟩)⟩

/-- Tokens are a description, or unfinished, or there is a first one with which none goes on. -/
theorem cases_of_tokens (located : List Located) :
    (∃ d, grammar (located.map Located.token) d) ∨
      Unfinished grammar (located.map Located.token) ∨
        ∃ before t, BreaksOff grammar located before t := by
  cases hread : r.read located with
  | ok d => exact Or.inl ⟨d, h.read_eq_ok_iff.1 hread⟩
  | error e =>
    rcases h.read_eq_error_iff.1 hread with ⟨before, t, _, hbreak, _⟩ | ⟨p, hp, hnone, -⟩
    · exact Or.inr (Or.inr ⟨before, t, hbreak⟩)
    · exact Or.inr (Or.inl (h.unfinished_iff.2 ⟨p, hp, hnone⟩))

end Decides

end Reader

end RegularLanguages.Source

import Mathlib.Data.List.Basic
import RegularLanguages.Proofs.Checking
import RegularLanguages.Proofs.Regex.Preorder
import RegularLanguages.Proofs.Source.Tokenization
import RegularLanguages.Source.Grammar
import RegularLanguages.Source.Tokenization

/-!
# Writing and reading expressions

The text of an expression is one line: the nodes in preorder, one space between any two of them.
Only five symbols are spelled with a backslash. All others stand for themselves behind their quote,
blanks, `#` and the carriage return included.

* `yields_intercalate` -- tokens with single spaces between them are read as these tokens;
* `regexTokens_eq_ok` -- the tokens of nodes stand for these nodes;
* `parse_render` -- **reading undoes writing**, whatever symbols the expression has;
* `parse_render_line` -- **with a line end behind it, the text is read back too**, unless it ends with
  a carriage return: `return_suffix_iff` says so of the line, `mem_leaves_of_getLast?` of the
  expression.
-/

namespace RegularLanguages.Source

variable {s : List Char} {t : Token}

/-! ## 1. Tokens on a line -/

/-- Tokens with single spaces between them are read as these tokens, whatever closes the last one.
A carriage return as a symbol at the end must not meet a line feed, or it is taken for a part of the
line's end. -/
theorem yields_intercalate {ts : List Token} (hts : ∀ t ∈ ts, t.IsWritable) (hs : Closes s)
    (h : Yields s []) (hreturn : ts.getLast? = some (.symbol '\r') → s.head? ≠ some '\n') :
    Yields ((" ".intercalate (ts.map Token.spelling)).toList ++ s) ts := by
  induction ts with
  | nil => exact h
  | cons t ts ih =>
    have ht := hts t List.mem_cons_self
    cases ts with
    | nil =>
      rw [List.map_singleton, String.intercalate_singleton]
      exact h.token ht hs fun e => hreturn (congrArg some e)
    | cons u us =>
      have hrest := ih (fun v hv => hts v (List.mem_cons_of_mem t hv)) fun hd =>
        hreturn (by rwa [List.getLast?_cons_cons])
      rw [List.map_cons, List.map_cons, String.intercalate_cons_cons, String.toList_append,
        List.append_assoc]
      exact writes_token ht _ _ hrest

/-! ## 2. Nodes as tokens -/

theorem regexToken?_ofRegexToken (n : Regex.Token) :
    (Token.ofRegexToken n).regexToken? = some n := by
  cases n <;> rfl

theorem regexToken?_eq_some_iff {n : Regex.Token} :
    t.regexToken? = some n ↔ t = Token.ofRegexToken n := by
  refine ⟨fun h => ?_, fun h => h ▸ regexToken?_ofRegexToken n⟩
  cases t with
  | symbol c | operator o => cases h; rfl
  | arrow | semicolon => cases h
  | word w =>
    rw [Token.regexToken?] at h
    split at h
    · rename_i hw
      cases h
      rw [hw]
      rfl
    · split at h
      · rename_i hw
        cases h
        rw [hw]
        rfl
      · cases h

theorem spelling_ofRegexToken (n : Regex.Token) :
    (Token.ofRegexToken n).spelling = n.spelling := by
  cases n <;> rfl

theorem ofRegexToken_eq_symbol_iff {n : Regex.Token} {c : Symbol} :
    Token.ofRegexToken n = .symbol c ↔ n = .symbol c := by
  cases n <;> simp [Token.ofRegexToken]

theorem isWritable_ofRegexToken (n : Regex.Token) : (Token.ofRegexToken n).IsWritable := by
  cases n with
  | operator | symbol => trivial
  | nil | empty => rfl

/-- The tokens of nodes stand for these nodes, on whatever lines they are found. -/
theorem regexTokens_eq_ok {located : List Located} {nodes : List Regex.Token}
    (h : located.map Located.token = nodes.map Token.ofRegexToken) :
    regexTokens located = .ok nodes := by
  induction located generalizing nodes with
  | nil =>
    obtain rfl := List.map_eq_nil_iff.1 h.symm
    rfl
  | cons t located ih =>
    obtain ⟨n, nodes, rfl, ht, hrest⟩ := List.map_eq_cons_iff.1 h.symm
    rw [regexTokens, ← ht, regexToken?_ofRegexToken, ih hrest.symm]
    rfl

end Source

namespace Regex

/-! ## 3. Reading undoes writing -/

/-- The nodes of an expression as tokens of a text. -/
def textTokens (e : Regex) : List Source.Token := e.preorder.map Source.Token.ofRegexToken

/-- A text that yields the nodes of an expression is read as it. -/
theorem parse_eq_ok_of_yields {text : String} {e : Regex}
    (h : Source.Yields text.toList e.textTokens) :
    Regex.parse text = .ok e := by
  obtain ⟨located, hread, hlocated⟩ := h 1
  have hnodes := Source.regexTokens_eq_ok hlocated
  have hregex : Source.regexOfTokens e.preorder = .ok e :=
    mapError_eq_ok_iff.2 (ofPreorder_preorder e)
  exact bind_eq_ok_iff.2 ⟨located, hread, bind_eq_ok_iff.2 ⟨_, hnodes, hregex⟩⟩

theorem render_eq (e : Regex) :
    e.render = " ".intercalate (e.textTokens.map Source.Token.spelling) := by
  rw [render, textTokens, List.map_map]
  exact congrArg _ (List.map_congr_left fun n _ => (Source.spelling_ofRegexToken n).symm)

theorem isWritable_of_mem_textTokens {e : Regex} {t : Source.Token} (ht : t ∈ e.textTokens) :
    t.IsWritable := by
  obtain ⟨n, _, rfl⟩ := List.mem_map.1 ht
  exact Source.isWritable_ofRegexToken n

/-- The text of an expression yields its nodes. -/
theorem yields_render (e : Regex) {s : List Char} (hs : Source.Closes s) (h : Source.Yields s [])
    (hreturn : e.textTokens.getLast? = some (.symbol '\r') → s.head? ≠ some '\n') :
    Source.Yields (e.render.toList ++ s) e.textTokens := by
  rw [render_eq]
  exact Source.yields_intercalate (fun _ ht => isWritable_of_mem_textTokens ht) hs h hreturn

/-- **Reading undoes writing**: the text of an expression, over whatever symbols, is read as that
expression. -/
theorem parse_render (e : Regex) : Regex.parse e.render = .ok e := by
  have hyields := yields_render e Source.closes_nil Source.yields_nil nofun
  rw [List.append_nil] at hyields
  exact parse_eq_ok_of_yields hyields

end Regex

/-! ## 4. A line end behind the text -/

namespace Source

variable {ts : List Token}

/-- Tokens with a space behind each of them. -/
def spacedOut (ts : List Token) : List Char := ts.flatMap fun t => t.spelling.toList ++ [' ']

theorem spacedOut_cons (t : Token) (ts : List Token) :
    spacedOut (t :: ts) = t.spelling.toList ++ ' ' :: spacedOut ts := by
  rw [spacedOut, List.flatMap_cons, List.append_assoc]
  rfl

/-- Of tokens with single spaces between them, each but the last one has a space behind it. -/
theorem toList_intercalate_concat (ts : List Token) (t : Token) :
    (" ".intercalate ((ts ++ [t]).map Token.spelling)).toList =
      spacedOut ts ++ t.spelling.toList := by
  induction ts with
  | nil =>
    rw [List.nil_append, List.map_singleton, String.intercalate_singleton]
    rfl
  | cons u ts ih =>
    have hne : ts ++ [t] ≠ [] := List.append_ne_nil_of_right_ne_nil ts (List.cons_ne_nil t [])
    obtain ⟨v, vs, hv⟩ := List.exists_cons_of_ne_nil hne
    rw [hv, List.map_cons] at ih
    rw [List.cons_append, hv, List.map_cons, List.map_cons, String.intercalate_cons_cons,
      String.toList_append, String.toList_append, ih, spacedOut_cons, List.append_assoc,
      List.append_assoc]
    rfl

/-- Tokens with a space behind each of them are read first on their line. -/
theorem tokens?_spaced_append (hts : ∀ t ∈ ts, t.IsWritable) (s : List Char) :
    Reading.between.tokens? (spacedOut ts ++ s) = (Reading.between.tokens? s).map (ts ++ ·) := by
  induction ts with
  | nil => exact Option.map_id'.symm
  | cons t ts ih =>
    have hspace : Reading.between.tokens? (' ' :: (spacedOut ts ++ s)) =
        (Reading.between.tokens? s).map (ts ++ ·) :=
      (tokens?_blank rfl).trans (ih fun u hu => hts u (List.mem_cons_of_mem t hu))
    rw [spacedOut_cons, List.append_assoc, List.cons_append,
      tokens?_spelling_append (hts t List.mem_cons_self) (closes_cons rfl), hspace, Option.map_map]
    rfl

theorem lineFeed_not_mem_spacedOut (hts : ∀ t ∈ ts, t.IsWritable) : '\n' ∉ spacedOut ts := by
  intro h
  obtain ⟨t, ht, h⟩ := List.mem_flatMap.1 h
  rcases List.mem_append.1 h with h | h
  · exact lineFeed_not_mem_spelling (hts t ht) h
  · exact absurd h (by decide)

/-- **A carriage return as the last symbol of a line is lost**: it is taken for a part of the line's
end, and the quote before it stands alone. -/
theorem tokenizeLines_return (hts : ∀ t ∈ ts, t.IsWritable) (line : Nat) :
    tokenizeLines line (Text.lines
      ((" ".intercalate ((ts ++ [Token.symbol '\r']).map Token.spelling)).toList ++ ['\n'])) =
        .error (.unexpected line .loneQuote .symbolAfterQuote) := by
  let u := spacedOut ts ++ ['\'']
  have htext : (" ".intercalate ((ts ++ [Token.symbol '\r']).map Token.spelling)).toList ++ ['\n'] =
      u ++ ['\r', '\n'] := by
    rw [toList_intercalate_concat, List.append_assoc, List.append_assoc]
    rfl
  have hfeed : '\n' ∉ u := fun h =>
    (List.mem_append.1 h).elim (lineFeed_not_mem_spacedOut hts) (by decide)
  have hlines : Text.lines (u ++ ['\r', '\n']) = [u] := by
    rw [Text.lines_append (List.append_ne_nil_of_right_ne_nil _ (List.cons_ne_nil _ _)) hfeed
      fun _ => by decide]
    exact congrArg ([·]) (List.append_nil u)
  have hread : Token.ofLine? u = none := tokens?_spaced_append hts ['\'']
  rw [htext, hlines, tokenizeLines, hread]

end Source

namespace Regex

variable {e : Regex}

/-- **Reading a line with the text of an expression**: it yields the expression, unless the last
symbol is a carriage return. -/
theorem parse_render_line (e : Regex) : Regex.parse (e.render ++ "\n") =
    if e.textTokens.getLast? = some (.symbol '\r')
    then .error (.unexpected 1 .loneQuote .symbolAfterQuote) else .ok e := by
  split
  · rename_i h
    obtain ⟨ts, hts⟩ := List.getLast?_eq_some_iff.1 h
    have hwritable : ∀ t ∈ ts, t.IsWritable := fun t ht =>
      isWritable_of_mem_textTokens (hts ▸ List.mem_append_left _ ht)
    have hread : Source.tokenize (e.render ++ "\n") =
        .error (.unexpected 1 .loneQuote .symbolAfterQuote) := by
      rw [Source.tokenize, render_eq, hts, String.toList_append]
      exact Source.tokenizeLines_return hwritable 1
    rw [parse, hread]
    rfl
  · rename_i h
    have hyields := yields_render e (s := ['\n']) (Source.closes_cons rfl)
      (Source.yields_nil.blank rfl) fun hlast => absurd hlast h
    refine parse_eq_ok_of_yields ?_
    rw [String.toList_append]
    exact hyields

/-- The line ends with a carriage return and a line feed if the last symbol is a carriage return. -/
theorem return_suffix_iff : "\r\n".toList <:+ (e.render ++ "\n").toList ↔
    e.textTokens.getLast? = some (.symbol '\r') := by
  obtain hnil | ⟨ts, t, hts⟩ := List.eq_nil_or_concat e.textTokens
  · cases e <;> cases hnil
  rw [List.concat_eq_append] at hts
  have ht : t.IsWritable := isWritable_of_mem_textTokens (hts ▸ List.mem_concat_self)
  have hlast : e.render.toList.getLast? = t.spelling.toList.getLast? := by
    rw [render_eq, hts, Source.toList_intercalate_concat,
      List.getLast?_append_of_ne_nil _ (Source.spelling_ne_nil ht)]
  have hsuffix : "\r\n".toList <:+ (e.render ++ "\n").toList ↔
      e.render.toList.getLast? = some '\r' := by
    rw [String.toList_append, List.getLast?_eq_some_iff]
    refine exists_congr fun u => ?_
    have hend : "\r\n".toList = ['\r'] ++ "\n".toList := rfl
    rw [hend, ← List.append_assoc, List.append_left_inj, eq_comm]
  rw [hsuffix, hlast, Source.getLast?_spelling_iff ht, hts, List.getLast?_concat, Option.some.injEq]

/-- What the text of an expression ends with is a symbol of the expression. -/
theorem mem_leaves_of_getLast? {c : Symbol} (h : e.textTokens.getLast? = some (.symbol c)) :
    c ∈ e.leaves := by
  obtain ⟨n, hn, e'⟩ := List.mem_map.1 (List.mem_of_getLast? h)
  rw [Source.ofRegexToken_eq_symbol_iff] at e'
  exact mem_leaves_of_mem_preorder e (e' ▸ hn)

end Regex

end RegularLanguages

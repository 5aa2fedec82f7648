import RegularLanguages.Proofs.Regex.Consumption
import RegularLanguages.Regex.Consumption

/-!
# Offsets never split a symbol

Reading by byte offsets goes through a text like reading by symbols: at whatever offset it cuts the
text, a symbol begins or the text ends.

* `exists_cutAt_iff` -- the offsets at which a text can be cut are the positions of its UTF-8 form;
* `repeatedBytes_append` -- the loop of a repetition stands behind whole pieces whenever it cuts;
* `consumedBytes_eq` -- **what is read in bytes are the bytes of what is read in symbols**, and no
  cut is misplaced;
* `exists_consumed?_of_denotes_nil` -- an expression that matches the empty word never fails;
* `consumption_sound_total` -- **consumption is sound and total**.
-/

namespace RegularLanguages

variable {w : Word} {n m : Nat}

/-! ## 1. Offsets in a text -/

/-- **The offsets at which a text can be cut are the positions of its UTF-8 form.** -/
theorem exists_cutAt_iff : (∃ parts, cutAt n w = .ok parts) ↔
    (⟨n⟩ : String.Pos.Raw).IsValid (String.ofList w) := by
  rw [String.Pos.Raw.isValid_iff_exists_append]
  constructor
  · intro h
    obtain ⟨⟨u, v⟩, h⟩ := h
    obtain ⟨rfl, rfl⟩ := cutAt_eq_ok_iff.1 h
    exact ⟨String.ofList u, String.ofList v, String.ofList_append, rfl⟩
  · intro h
    obtain ⟨s, t, happ, hpos⟩ := h
    refine ⟨(s.toList, t.toList), cutAt_eq_ok_iff.2 ⟨?_, ?_⟩⟩
    · rw [← String.toList_append, ← happ, String.toList_ofList]
    · rw [byteSize, String.ofList_toList]
      exact (congrArg String.Pos.Raw.byteIdx hpos).symm

theorem cutAt_take (n : Nat) (w : Word) :
    cutAt (byteSize (w.take n)) w = .ok (w.take n, w.drop n) :=
  cutAt_eq_ok_iff.2 ⟨List.take_append_drop n w, rfl⟩

theorem byteSize_take_add (n m : Nat) (w : Word) :
    byteSize (w.take (n + m)) = byteSize (w.take n) + byteSize ((w.drop n).take m) := by
  rw [List.take_add, byteSize_append]

theorem byteSize_take_succ_ne_zero (h : n + 1 ≤ w.length) : byteSize (w.take (n + 1)) ≠ 0 := by
  intro hzero
  rcases List.take_eq_nil_iff.1 (byteSize_eq_zero_iff.1 hzero) with h' | rfl
  · cases h'
  · cases h

/-- Of two offsets in a text the one behind more symbols is the greater one. -/
theorem byteSize_take_lt_iff (hm : m ≤ w.length) :
    byteSize (w.take n) < byteSize (w.take m) ↔ n < m := by
  rcases Nat.lt_or_ge n m with h | h
  · obtain ⟨k, rfl⟩ := Nat.exists_eq_add_of_lt h
    have hk : k + 1 ≤ (w.drop n).length := by
      rw [List.length_drop]
      omega
    have hpos := byteSize_take_succ_ne_zero hk
    rw [Nat.add_assoc, byteSize_take_add]
    omega
  · obtain ⟨k, rfl⟩ := Nat.exists_eq_add_of_le h
    rw [byteSize_take_add]
    omega

/-- A number of symbols from the front of a text, counted in bytes. -/
def inBytes (w : Word) (reading : Option Nat) : Option Nat :=
  reading.map fun n => byteSize (w.take n)

/-- The reading that is longer in symbols is longer in bytes. -/
theorem inBytes_longer? {x y : Option Nat} (hy : ∀ m, y = some m → m ≤ w.length) :
    inBytes w (longer? x y) = longer? (inBytes w x) (inBytes w y) := by
  cases x with
  | none => rfl
  | some n =>
    cases y with
    | none => rfl
    | some m =>
      simp only [inBytes, longer?, Option.map_some, gt_iff_lt, byteSize_take_lt_iff (hy m rfl)]
      split <;> rfl

/-! ## 2. Repeated reading -/

section Repetition

variable {read : Word → Option Nat} {readBytes : Word → Except MisplacedCut (Option Nat)}

theorem repeatedBytes_of_cutAt {total : Nat} {u v : Word} (h : cutAt total w = .ok (u, v)) :
    repeatedBytes readBytes w total =
      match readBytes v with
      | .error e => .error e
      | .ok none => .ok total
      | .ok (some n) => if n = 0 then .ok total else repeatedBytes readBytes w (total + n) := by
  rw [repeatedBytes]
  split
  · rename_i herror
    rw [h] at herror
    cases herror
  · rename_i hok
    rw [h] at hok
    cases hok
    rfl

/-- **Between two pieces the loop stands where a symbol begins or the text ends**, and it stops where
repeated reading of symbols does. -/
theorem repeatedBytes_append (hread : StaysInside read)
    (hbytes : ∀ w, readBytes w = .ok (inBytes w (read w))) (u v : Word) :
    repeatedBytes readBytes (u ++ v) (byteSize u) =
      .ok (byteSize (u ++ v.take (repeatedFrom read 0 v))) := by
  induction v using repeatedReading_induction hread generalizing u with
  | stop v h =>
    have hcut : cutAt (byteSize u) (u ++ v) = .ok (u, v) := cutAt_eq_ok_iff.2 ⟨rfl, rfl⟩
    rw [repeatedBytes_of_cutAt hcut, hbytes, repeatedFrom_of_stalls h, List.take_zero,
      List.append_nil]
    -- a reader that stalls fails or reads nothing
    match hv : read v with
    | none => rfl
    | some 0 => rfl
    | some (n + 1) => exact absurd hv (h n)
  | piece v n h ih =>
    have hcut : cutAt (byteSize u) (u ++ v) = .ok (u, v) := cutAt_eq_ok_iff.2 ⟨rfl, rfl⟩
    have hpiece : inBytes v (read v) = some (byteSize (v.take (n + 1))) := by rw [h]; rfl
    have hne : byteSize (v.take (n + 1)) ≠ 0 := byteSize_take_succ_ne_zero (hread v (n + 1) h)
    have hnext := ih (u ++ v.take (n + 1))
    rw [List.append_assoc, List.take_append_drop, byteSize_append, List.append_assoc,
      ← List.take_add] at hnext
    rw [repeatedBytes_of_cutAt hcut, hbytes, hpiece, repeatedFrom_of_piece hread h]
    exact (if_neg hne).trans hnext

end Repetition

/-! ## 3. What is read -/

namespace Regex

variable {e : Regex}

theorem consumedBytes_star (h : ∀ w, e.consumedBytes w = .ok (inBytes w (e.consumed? w))) :
    (star e).consumedBytes w = .ok (inBytes w ((star e).consumed? w)) := by
  have hloop : repeatedBytes e.consumedBytes w 0 =
      .ok (byteSize (w.take (repeatedFrom e.consumed? 0 w))) :=
    repeatedBytes_append (staysInside_consumed? e) h [] w
  rw [consumedBytes, hloop]
  rfl

/-- **What is read in bytes are the bytes of what is read in symbols**, and no cut on the way is
misplaced. -/
theorem consumedBytes_eq : ∀ (e : Regex) (w : Word),
    e.consumedBytes w = .ok (inBytes w (e.consumed? w))
  | .symbol c, [] => rfl
  | .symbol c, d :: w => by
    rw [consumedBytes, consumed?, List.head?_cons]
    split
    · rename_i hd
      cases hd
      rw [inBytes, Option.map_some, List.take_succ_cons, List.take_zero, byteSize_cons]
      rfl
    · rfl
  | .concat l r, w => by
    rw [consumedBytes, consumedBytes_eq l w, consumed?_concat]
    cases l.consumed? w with
    | none => rfl
    | some n =>
      have hcut := cutAt_take n w
      have hr := consumedBytes_eq r (w.drop n)
      simp only [inBytes, Option.map_some, Option.bind_some, bind, Except.bind, hcut, hr]
      cases r.consumed? (w.drop n) with
      | none => rfl
      | some m =>
        rw [Option.map_some, Option.map_some, Option.map_some, Option.map_some, byteSize_take_add]
        rfl
  | .alt l r, w => by
    rw [consumedBytes, consumedBytes_eq l w, consumedBytes_eq r w, consumed?,
      inBytes_longer? (staysInside_consumed? r w)]
    rfl
  | .star e, w => consumedBytes_star (consumedBytes_eq e)
  | .nil, w => rfl
  | .empty, w => rfl

theorem consumeBytes_eq (e : Regex) (w : Word) : e.consumeBytes w = .ok (e.consume w) := by
  rw [consumeBytes, consumedBytes_eq, consume]
  cases e.consumed? w with
  | none => rfl
  | some n => exact cutAt_take n w

/-! ## 4. Expressions that match the empty word -/

/-- **An expression that matches the empty word never fails**: at worst it reads nothing. -/
theorem exists_consumed?_of_denotes_nil : ∀ {e : Regex}, Denotes e [] → ∀ w,
    ∃ n, e.consumed? w = some n
  | .symbol c, h, w => nomatch mem_language_symbol.1 h
  | .concat l r, h, w => by
    obtain ⟨u, v, huv, hu, hv⟩ := (isDenotation_denotes.concat l r []).1 h
    obtain ⟨rfl, rfl⟩ := List.append_eq_nil_iff.1 huv.symm
    obtain ⟨n, hn⟩ := exists_consumed?_of_denotes_nil hu w
    obtain ⟨m, hm⟩ := exists_consumed?_of_denotes_nil hv (w.drop n)
    exact ⟨n + m, by rw [consumed?_concat, hn, Option.bind_some, hm, Option.map_some]⟩
  | .alt l r, h, w => by
    rw [consumed?]
    rcases (isDenotation_denotes.alt l r []).1 h with h | h
    · obtain ⟨n, hn⟩ := exists_consumed?_of_denotes_nil h w
      rw [hn]
      cases r.consumed? w with
      | none => exact ⟨n, rfl⟩
      | some m => exact ⟨_, rfl⟩
    · obtain ⟨m, hm⟩ := exists_consumed?_of_denotes_nil h w
      rw [hm]
      cases l.consumed? w with
      | none => exact ⟨m, rfl⟩
      | some n => exact ⟨_, rfl⟩
  | .star e, _, w => ⟨_, rfl⟩
  | .nil, _, _ => ⟨0, rfl⟩
  | .empty, h, _ => nomatch h

/-! ## 5. Soundness and totality -/

/-- An offset that is read is a position of the text, and what stands before it is matched. -/
theorem sound_of_consumedBytes (h : e.consumedBytes w = .ok (some n)) :
    (⟨n⟩ : String.Pos.Raw).IsValid (String.ofList w) ∧
      ∃ u v, u ++ v = w ∧ byteSize u = n ∧ e.accepts u = true := by
  rw [consumedBytes_eq, Except.ok.injEq] at h
  obtain ⟨k, hk, rfl⟩ := Option.map_eq_some_iff.1 h
  exact ⟨exists_cutAt_iff.1 ⟨_, cutAt_take k w⟩, w.take k, w.drop k, List.take_append_drop k w, rfl,
    accepts_take_of_consumed? hk⟩

/-- **Greedy consumption is sound and total.** Reading by byte offsets ends and never cuts a symbol:
it reads the bytes of what is read in symbols. An offset that is read is a position of the UTF-8
form of the text, and the part before it is matched. An expression that matches the empty word reads
something from every text, if only nothing. What consumption cuts off and what it leaves make up the
text, and what it cuts off is matched unless it is empty. -/
theorem consumption_sound_total (e : Regex) :
    (∀ w, e.consumedBytes w = .ok ((e.consumed? w).map fun n => byteSize (w.take n))) ∧
    (∀ w n, e.consumedBytes w = .ok (some n) →
      (⟨n⟩ : String.Pos.Raw).IsValid (String.ofList w) ∧
        ∃ u v, u ++ v = w ∧ byteSize u = n ∧ e.accepts u = true) ∧
    (e.accepts [] = true → ∀ w, ∃ n, e.consumedBytes w = .ok (some n)) ∧
    ∀ w, ∃ p r, e.consumeBytes w = .ok (p, r) ∧ e.consume w = (p, r) ∧ p ++ r = w ∧
      (p ≠ [] → e.accepts p = true) := by
  refine ⟨consumedBytes_eq e, fun w n h => sound_of_consumedBytes h, fun h w => ?_, fun w => ?_⟩
  · obtain ⟨k, hk⟩ := exists_consumed?_of_denotes_nil (accepts_iff.1 h) w
    exact ⟨byteSize (w.take k), by rw [consumedBytes_eq, hk]; rfl⟩
  · exact ⟨(e.consume w).1, (e.consume w).2, consumeBytes_eq e w, rfl, e.consume_append w,
      accepts_consume_of_ne_nil⟩

/-- An expression that reads letters of two bytes, then perhaps one of one byte. -/
def accented : Regex := .concat (.star (.symbol 'é')) (.alt .nil (.symbol 'x'))

theorem consumption_sound_total_accented :
    accented.consumedBytes ['é', 'é', 'x', 'é'] = .ok (some 5) ∧
      (⟨5⟩ : String.Pos.Raw).IsValid "ééxé" ∧ accented.accepts [] = true ∧
        (∃ n, accented.consumedBytes ['x', 'é'] = .ok (some n)) ∧
          accented.accepts ['é', 'é', 'x'] = true := by
  obtain ⟨hbytes, hsound, htotal, hcut⟩ := consumption_sound_total accented
  have hread : accented.consumedBytes ['é', 'é', 'x', 'é'] = .ok (some 5) :=
    (hbytes ['é', 'é', 'x', 'é']).trans (by decide)
  have hnil : accented.accepts [] = true := by decide
  obtain ⟨p, r, -, hp, -, hmatched⟩ := hcut ['é', 'é', 'x', 'é']
  have hpiece : p = ['é', 'é', 'x'] := (congrArg Prod.fst hp).symm.trans (by decide)
  subst hpiece
  exact ⟨hread, (hsound _ _ hread).1, hnil, htotal hnil ['x', 'é'], hmatched (by decide)⟩

end Regex

end RegularLanguages

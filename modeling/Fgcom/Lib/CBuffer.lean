import Mathlib.Algebra.Order.Group.Int
import Mathlib.Data.List.Basic

/-! # Strings in a buffer

C strings that live in one buffer and are cut up in place. A pointer is an index into the buffer; a
result is `none` as soon as a byte outside the buffer is read or written.

* **`store`** — writing one byte; **`scan`** — the loop that moves a pointer up to a byte of some
  kind.
* **`readString`** and **`strtok`** — reading the string at a pointer, and cutting off its next
  token.
* **`StringIn`** — a string that lies in the front part of the buffer, its terminator included: it
  is read back whatever happens behind that part (`readString_append`). -/

namespace CBuffer

variable {α : Type*}

/-! ## Bytes -/

/-- Writing a byte: outside the buffer that has no defined effect. -/
def store (b : List α) (i : ℤ) (c : α) : Option (List α) :=
  if 0 ≤ i ∧ i < b.length then some (b.set i.toNat c) else none

/-- A pointer moved on from `p` until it stands at a byte of some kind: the loop runs out of the
buffer where there is none. -/
def scan (stop : α → Bool) (b : List α) (p : ℕ) : Option ℕ :=
  ((b.drop p).findIdx? stop).map (p + ·)

/-- A store within the buffer. -/
theorem store_append (pre post : List α) (x c : α) :
    store (pre ++ x :: post) pre.length c = some (pre ++ c :: post) := by
  have hin : (0 : ℤ) ≤ (pre.length : ℤ) ∧ (pre.length : ℤ) < (pre ++ x :: post).length := by
    rw [List.length_append, List.length_cons]
    omega
  rw [store, if_pos hin, Int.toNat_natCast, List.set_append_right _ _ le_rfl, Nat.sub_self,
    List.set_cons_zero]

/-- A store in front of the buffer. -/
theorem store_of_neg (b : List α) {i : ℤ} (hi : i < 0) (c : α) : store b i c = none :=
  if_neg fun h => absurd h.1 (not_le.mpr hi)

theorem length_of_store {b b' : List α} {i : ℤ} {c : α} (h : store b i c = some b') :
    b'.length = b.length := by
  unfold store at h
  split at h
  · obtain rfl := Option.some.inj h
    exact List.length_set
  · exact absurd h (by simp)

/-- Where a scan stops. -/
theorem scan_append {stop : α → Bool} (pre : List α) {mid : List α} (post : List α) {x : α}
    (hmid : ∀ c ∈ mid, stop c = false) (hx : stop x = true) :
    scan stop (pre ++ (mid ++ x :: post)) pre.length = some (pre.length + mid.length) := by
  have hidx : (mid ++ x :: post).findIdx? stop = some mid.length := by
    rw [List.findIdx?_append, List.findIdx?_eq_none_iff.mpr hmid, List.findIdx?_cons, if_pos hx]
    simp
  rw [scan, List.drop_append_length, hidx, Option.map_some]

/-- The byte behind the first two parts of a buffer. -/
theorem getElem?_middle (pre mid : List α) (x : α) (post : List α) :
    (pre ++ (mid ++ x :: post))[pre.length + mid.length]? = some x := by
  rw [List.getElem?_append_right (Nat.le_add_right _ _), Nat.add_sub_cancel_left,
    List.getElem?_append_right le_rfl, Nat.sub_self, List.getElem?_cons_zero]

/-- A scan stops in the buffer, not before it started, at a byte of the kind. -/
theorem le_of_scan {stop : α → Bool} {b : List α} {p q : ℕ} (h : scan stop b p = some q) :
    p ≤ q ∧ q < b.length ∧ ∀ c, b[q]? = some c → stop c = true := by
  obtain ⟨i, hi, rfl⟩ := Option.map_eq_some_iff.mp h
  obtain ⟨hlt, hstop, -⟩ := List.findIdx?_eq_some_iff_getElem.mp hi
  rw [List.length_drop] at hlt
  refine ⟨by omega, by omega, fun c hc => ?_⟩
  rw [List.getElem_drop] at hstop
  obtain ⟨hlen, rfl⟩ := List.getElem?_eq_some_iff.mp hc
  exact hstop

/-- The byte a scan stops at, with what it passed and what lies behind. -/
theorem exists_of_scan {stop : α → Bool} {b : List α} {p q : ℕ} (h : scan stop b p = some q) :
    ∃ mid x post, b.drop p = mid ++ x :: post ∧ q = p + mid.length ∧
      (∀ c ∈ mid, stop c = false) ∧ stop x = true := by
  obtain ⟨i, hi, rfl⟩ := Option.map_eq_some_iff.mp h
  obtain ⟨hlt, hstop, hnot⟩ := List.findIdx?_eq_some_iff_getElem.mp hi
  refine ⟨(b.drop p).take i, (b.drop p)[i], (b.drop p).drop (i + 1), ?_, ?_, fun c hc => ?_, hstop⟩
  · rw [← List.drop_eq_getElem_cons hlt, List.take_append_drop]
  · rw [List.length_take_of_le hlt.le]
  · obtain ⟨j, hj, rfl⟩ := List.getElem_of_mem hc
    rw [List.length_take_of_le hlt.le] at hj
    rw [List.getElem_take]
    exact Bool.eq_false_iff.mpr (hnot j hj)

/-- A scan stops when there is a byte of the kind, and only then. -/
theorem isSome_scan (stop : α → Bool) (b : List α) (p : ℕ) :
    (scan stop b p).isSome = (b.drop p).any stop := by
  rw [scan, Option.isSome_map, List.findIdx?_isSome]

/-! ## Strings -/

/-- A string at `p` that lies in the front part of a buffer. -/
def StringIn (nul : α) (front : List α) (p : ℕ) (t : List α) : Prop :=
  ∃ a c, front = a ++ (t ++ nul :: c) ∧ a.length = p ∧ nul ∉ t

/-- Such a string stays where it is when the front part grows. -/
theorem StringIn.append {nul : α} {front : List α} {p : ℕ} {t : List α} (h : StringIn nul front p t)
    (more : List α) : StringIn nul (front ++ more) p t := by
  obtain ⟨a, c, rfl, hp, ht⟩ := h
  exact ⟨a, c ++ more, by simp, hp, ht⟩

section Strings

variable [DecidableEq α] {nul : α}

/-- Moving to the end of a string. -/
theorem scan_nul (pre : List α) {mid : List α} (post : List α) (h : nul ∉ mid) :
    scan (· = nul) (pre ++ (mid ++ nul :: post)) pre.length = some (pre.length + mid.length) :=
  scan_append pre post (fun _ hc => decide_eq_false fun heq => h (heq ▸ hc)) (decide_eq_true rfl)

/-- The string at a pointer, read up to its terminator. -/
def readString (nul : α) (b : List α) (p : ℕ) : Option (List α) :=
  (scan (· = nul) b p).map fun q => (b.drop p).take (q - p)

/-- A string at a pointer is read up to its terminator. -/
theorem readString_string (pre : List α) {t : List α} (rest : List α) (h : nul ∉ t) :
    readString nul (pre ++ (t ++ nul :: rest)) pre.length = some t := by
  rw [readString, scan_nul pre rest h, Option.map_some, List.drop_append_length,
    Nat.add_sub_cancel_left, List.take_append_length]

/-- **A string in the front part is read back**, whatever stands behind it. -/
theorem readString_append {front : List α} {p : ℕ} {t : List α} (h : StringIn nul front p t)
    (behind : List α) : readString nul (front ++ behind) p = some t := by
  obtain ⟨a, c, rfl, rfl, ht⟩ := h
  have hassoc : a ++ (t ++ nul :: c) ++ behind = a ++ (t ++ nul :: (c ++ behind)) := by simp
  rw [hassoc, readString_string a (c ++ behind) ht]

/-! ## Tokens -/

/-- `strtok` at a pointer: separators are skipped, and the token up to the next separator or the
terminator is cut off in place. The buffer, and the token with the pointer for the next call. -/
def strtok (nul sep : α) (b : List α) (s : ℕ) : Option (List α × Option (ℕ × ℕ)) :=
  (scan (· ≠ sep) b s).bind fun p =>
    b[p]?.bind fun c =>
      if c = nul then some (b, none)
      else
        (scan (fun c => c = sep || c = nul) b p).bind fun q =>
          b[q]?.bind fun c =>
            if c = nul then some (b, some (p, q))
            else (store b q nul).map fun b => (b, some (p, q + 1))

variable {sep : α} {seps token : List α} (pre rest : List α)

/-- Skipping the separators in front of a token or the terminator. -/
theorem scan_seps (hseps : ∀ c ∈ seps, c = sep) {x : α} (hx : x ≠ sep) :
    scan (· ≠ sep) (pre ++ (seps ++ x :: rest)) pre.length = some (pre.length + seps.length) :=
  scan_append pre rest (fun c hc => by simp [hseps c hc]) (by simpa using hx)

/-- Moving to the end of a token. -/
theorem scan_token (hsep : sep ∉ token) (hnul : nul ∉ token) {x : α} (hx : x = sep ∨ x = nul) :
    scan (fun c => c = sep || c = nul) (pre ++ (token ++ x :: rest)) pre.length
      = some (pre.length + token.length) := by
  refine scan_append pre rest (fun c hc => ?_) (by simpa using hx)
  have hcsep : c ≠ sep := fun h => hsep (h ▸ hc)
  have hcnul : c ≠ nul := fun h => hnul (h ▸ hc)
  simp [hcsep, hcnul]

/-- **No token is left.** -/
theorem strtok_end (hseps : ∀ c ∈ seps, c = sep) (hne : nul ≠ sep) :
    strtok nul sep (pre ++ (seps ++ nul :: rest)) pre.length
      = some (pre ++ (seps ++ nul :: rest), none) := by
  rw [strtok, scan_seps pre rest hseps hne, Option.bind_some, getElem?_middle, Option.bind_some,
    if_pos rfl]

/-- A token is found, and the byte behind it decides. -/
theorem strtok_token (hseps : ∀ c ∈ seps, c = sep) (htoken : token ≠ []) (hsep : sep ∉ token)
    (hnul : nul ∉ token) {x : α} (hx : x = sep ∨ x = nul) :
    strtok nul sep (pre ++ (seps ++ (token ++ x :: rest))) pre.length
      = if x = nul then
          some (pre ++ (seps ++ (token ++ x :: rest)),
            some ((pre ++ seps).length, (pre ++ seps).length + token.length))
        else
          (store ((pre ++ seps) ++ (token ++ x :: rest)) ((pre ++ seps).length + token.length : ℕ)
            nul).map fun b =>
              (b, some ((pre ++ seps).length, (pre ++ seps).length + token.length + 1)) := by
  obtain ⟨c, t, rfl⟩ := List.exists_cons_of_ne_nil htoken
  have hc : c ≠ sep := fun h => hsep (h ▸ List.mem_cons_self)
  have hc' : c ≠ nul := fun h => hnul (h ▸ List.mem_cons_self)
  have hscan := scan_seps pre (t ++ x :: rest) hseps hc
  have hget := getElem?_middle pre seps c (t ++ x :: rest)
  have hend := scan_token (pre ++ seps) rest hsep hnul hx
  have hbyte := getElem?_middle (pre ++ seps) (c :: t) x rest
  rw [List.append_assoc] at hend hbyte
  rw [strtok, List.cons_append, hscan, Option.bind_some, hget, Option.bind_some, if_neg hc',
    ← List.length_append, ← List.cons_append, hend, Option.bind_some, hbyte, Option.bind_some,
    List.append_assoc]

/-- **The last token**: the terminator ends it, and stays where it is. -/
theorem strtok_last (hseps : ∀ c ∈ seps, c = sep) (htoken : token ≠ []) (hsep : sep ∉ token)
    (hnul : nul ∉ token) :
    strtok nul sep (pre ++ (seps ++ (token ++ nul :: rest))) pre.length
      = some (pre ++ (seps ++ (token ++ nul :: rest)),
          some ((pre ++ seps).length, (pre ++ seps).length + token.length)) := by
  rw [strtok_token pre rest hseps htoken hsep hnul (Or.inr rfl), if_pos rfl]

/-- **A token in front of a separator**, which is overwritten. -/
theorem strtok_next (hseps : ∀ c ∈ seps, c = sep) (htoken : token ≠ []) (hsep : sep ∉ token)
    (hnul : nul ∉ token) (hne : nul ≠ sep) :
    strtok nul sep (pre ++ (seps ++ (token ++ sep :: rest))) pre.length
      = some (pre ++ (seps ++ (token ++ nul :: rest)),
          some ((pre ++ seps).length, (pre ++ seps).length + token.length + 1)) := by
  have hstore := store_append (pre ++ seps ++ token) rest sep nul
  rw [List.length_append, List.append_assoc (pre ++ seps), List.append_assoc (pre ++ seps)]
    at hstore
  rw [strtok_token pre rest hseps htoken hsep hnul (Or.inl rfl), if_neg hne.symm, hstore,
    Option.map_some, List.append_assoc]

/-- Each token gets on, and the buffer keeps its size. -/
theorem lt_of_strtok {b b' : List α} {s p save : ℕ}
    (h : strtok nul sep b s = some (b', some (p, save))) :
    s < save ∧ save ≤ b.length ∧ b'.length = b.length := by
  obtain ⟨p', hp', h⟩ := Option.bind_eq_some_iff.mp h
  obtain ⟨c, hc, h⟩ := Option.bind_eq_some_iff.mp h
  have hskip := le_of_scan hp'
  split at h
  · exact absurd h (by simp)
  · rename_i hcnul
    obtain ⟨q, hq, h⟩ := Option.bind_eq_some_iff.mp h
    obtain ⟨d, hd, h⟩ := Option.bind_eq_some_iff.mp h
    have hend := le_of_scan hq
    -- a token starts with neither a separator nor the terminator, so it is not empty
    have hne : p' ≠ q := by
      rintro rfl
      have hstop := hend.2.2 c hc
      have hcsep := hskip.2.2 c hc
      simp only [Bool.or_eq_true, decide_eq_true_eq] at hstop hcsep
      exact hstop.elim hcsep hcnul
    split at h
    · obtain ⟨rfl, htoken⟩ := Prod.mk.inj (Option.some.inj h)
      obtain ⟨rfl, rfl⟩ := Prod.mk.inj (Option.some.inj htoken)
      exact ⟨by omega, by omega, rfl⟩
    · obtain ⟨b'', hstore, h⟩ := Option.map_eq_some_iff.mp h
      obtain ⟨rfl, htoken⟩ := Prod.mk.inj h
      obtain ⟨rfl, rfl⟩ := Prod.mk.inj (Option.some.inj htoken)
      exact ⟨by omega, by omega, length_of_store hstore⟩

end Strings

end CBuffer

import Mathlib.Data.List.Basic

/-!
# `Tachyon.Lib.HttpReader`: a client that splits a stream into responses

The reader takes header lines up to the blank line, looks up `Content-Length` and takes that many
bytes as the body. `readAll` repeats this until nothing is left.

A message is `Framed` when it is written the way the reader expects it: lines that are not empty
and contain no carriage return, and a `Content-Length` that is the length of the body. The reader
takes a framed message off the front of any stream (`readMessage_append`), so it splits a
concatenation of framed messages at their borders (`readAll_flatten`).
-/

set_option autoImplicit false

namespace Tachyon

namespace HttpReader

def CRLF : List UInt8 := [13, 10]

/-- `Content-Length: `. -/
def LENGTH_KEY : List UInt8 :=
  [67, 111, 110, 116, 101, 110, 116, 45, 76, 101, 110, 103, 116, 104, 58, 32]

/-! ### The reader -/

/-- The bytes before the first CRLF, and those after it. -/
def readLine : List UInt8 → Option (List UInt8 × List UInt8)
  | [] => none
  | b :: rest =>
    if b = 13 ∧ rest.head? = some 10 then some ([], rest.tail)
    else (readLine rest).map fun (line, after) => (b :: line, after)

/-- The lines before the blank line, and the bytes after it. -/
def readHead : Nat → List UInt8 → Option (List (List UInt8) × List UInt8)
  | 0, _ => none
  | rounds + 1, bs =>
    match readLine bs with
    | none => none
    | some (line, after) =>
      if line = [] then some ([], after)
      else (readHead rounds after).map fun (lines, body) => (line :: lines, body)

/-- A number in decimal digits. -/
def readNat (bs : List UInt8) : Option Nat :=
  if bs ≠ [] ∧ bs.all fun b => 48 ≤ b ∧ b ≤ 57 then
    some (bs.foldl (fun n b => 10 * n + (b.toNat - 48)) 0)
  else none

/-- The value of the first `Content-Length` line. -/
def contentLength (lines : List (List UInt8)) : Option Nat :=
  lines.findSome? fun line =>
    if LENGTH_KEY.isPrefixOf line then readNat (line.drop LENGTH_KEY.length) else none

/-- The first message, with its head, and the bytes after it. -/
def readMessage (bs : List UInt8) : Option (List UInt8 × List UInt8) :=
  (readHead bs.length bs).bind fun (lines, after) =>
    (contentLength lines).bind fun n =>
      if n ≤ after.length then some (bs.take (bs.length - (after.length - n)), after.drop n)
      else none

/-- All the messages, when nothing is left behind them. -/
def readAll : Nat → List UInt8 → Option (List (List UInt8))
  | _, [] => some []
  | 0, _ :: _ => none
  | rounds + 1, b :: bs =>
    (readMessage (b :: bs)).bind fun (message, after) =>
      (readAll rounds after).map fun rest => message :: rest

/-! ### Messages in wire format -/

/-- The lines, the blank line and the body. -/
def render (lines : List (List UInt8)) (body : List UInt8) : List UInt8 :=
  (lines.map (· ++ CRLF)).flatten ++ CRLF ++ body

/-- The message is a head with its lines and a body of the announced length. -/
def Framed (message : List UInt8) : Prop :=
  ∃ lines body, message = render lines body ∧ (∀ line ∈ lines, line ≠ [] ∧ 13 ∉ line) ∧
    contentLength lines = some body.length

theorem readLine_append {line : List UInt8} (h : 13 ∉ line) (rest : List UInt8) :
    readLine (line ++ CRLF ++ rest) = some (line, rest) := by
  induction line with
  | nil => rfl
  | cons b line ih =>
    rw [List.mem_cons, not_or] at h
    rw [List.cons_append, List.cons_append, readLine, if_neg fun hcr => h.1 hcr.1.symm, ih h.2]
    rfl

theorem readHead_append {lines : List (List UInt8)} (h : ∀ line ∈ lines, line ≠ [] ∧ 13 ∉ line)
    (rest : List UInt8) {rounds : Nat} (hr : lines.length < rounds) :
    readHead rounds ((lines.map (· ++ CRLF)).flatten ++ CRLF ++ rest) = some (lines, rest) := by
  induction lines generalizing rounds with
  | nil =>
    obtain ⟨n, rfl⟩ := Nat.exists_eq_add_of_lt hr
    rfl
  | cons line lines ih =>
    obtain ⟨⟨hne, hcr⟩, hlines⟩ := List.forall_mem_cons.mp h
    obtain ⟨n, rfl⟩ := Nat.exists_eq_succ_of_ne_zero (Nat.ne_of_gt (Nat.zero_lt_of_lt hr))
    rw [List.map_cons, List.flatten_cons, List.append_assoc _ _ CRLF, List.append_assoc _ _ rest,
      readHead, readLine_append hcr]
    simp only [if_neg hne]
    rw [ih hlines (Nat.lt_of_succ_lt_succ hr)]
    rfl

theorem length_lines_lt (lines : List (List UInt8)) (body : List UInt8) :
    lines.length < (render lines body).length := by
  have hle : lines.length ≤ ((lines.map (· ++ CRLF)).flatten).length := by
    induction lines with
    | nil => exact Nat.le_refl _
    | cons line lines ih =>
      rw [List.map_cons, List.flatten_cons, List.length_append, List.length_append,
        List.length_cons]
      have hcrlf : CRLF.length = 2 := rfl
      omega
  have hcrlf : CRLF.length = 2 := rfl
  rw [render, List.length_append, List.length_append]
  omega

theorem Framed.ne_nil {message : List UInt8} (h : Framed message) : message ≠ [] := by
  obtain ⟨lines, body, rfl, _⟩ := h
  exact List.ne_nil_of_length_pos (Nat.zero_lt_of_lt (length_lines_lt lines body))

/-- A framed message is taken off the front of a stream. -/
theorem readMessage_append {message : List UInt8} (h : Framed message) (rest : List UInt8) :
    readMessage (message ++ rest) = some (message, rest) := by
  obtain ⟨lines, body, rfl, hlines, hlen⟩ := h
  have hrounds : lines.length < (render lines body ++ rest).length := by
    rw [List.length_append]
    exact Nat.lt_add_right _ (length_lines_lt lines body)
  have hhead : readHead (render lines body ++ rest).length (render lines body ++ rest)
      = some (lines, body ++ rest) := by
    rw [render, List.append_assoc _ body rest] at hrounds ⊢
    exact readHead_append hlines (body ++ rest) hrounds
  rw [readMessage, hhead, Option.bind_some]
  simp only
  rw [hlen, Option.bind_some, if_pos (by simp)]
  have hsize : (render lines body ++ rest).length - ((body ++ rest).length - body.length)
      = (render lines body).length := by
    rw [List.length_append, List.length_append, Nat.add_sub_cancel_left, Nat.add_sub_cancel]
  rw [hsize, List.take_left, List.drop_left]

/-- The reader splits a concatenation of framed messages at their borders. -/
theorem readAll_flatten {messages : List (List UInt8)} (h : ∀ m ∈ messages, Framed m)
    {rounds : Nat} (hr : messages.length ≤ rounds) :
    readAll rounds messages.flatten = some messages := by
  induction messages generalizing rounds with
  | nil => cases rounds <;> rfl
  | cons m messages ih =>
    obtain ⟨hm, hrest⟩ := List.forall_mem_cons.mp h
    obtain ⟨n, rfl⟩ := Nat.exists_eq_succ_of_ne_zero (Nat.ne_of_gt (Nat.zero_lt_of_lt hr))
    obtain ⟨b, bs, hbs⟩ := List.exists_cons_of_ne_nil hm.ne_nil
    have hread := readMessage_append hm messages.flatten
    rw [List.flatten_cons, hbs, List.cons_append, readAll, ← List.cons_append, ← hbs, hread,
      Option.bind_some]
    simp only
    rw [ih hrest (Nat.le_of_succ_le_succ hr)]
    rfl

/-- Messages that are not empty are at most as many as their bytes. -/
theorem length_le_flatten {messages : List (List UInt8)} (h : ∀ m ∈ messages, Framed m) :
    messages.length ≤ messages.flatten.length := by
  induction messages with
  | nil => exact Nat.le_refl _
  | cons m messages ih =>
    obtain ⟨hm, hrest⟩ := List.forall_mem_cons.mp h
    have hpos := List.length_pos_of_ne_nil hm.ne_nil
    have hle := ih hrest
    rw [List.flatten_cons, List.length_append, List.length_cons]
    omega

end HttpReader

end Tachyon

import ImpSyntax.Tree.Outline

/-!
# Writing to a sink

A text that is put into a sink piece by piece gets there as if it was put at once: as much of it as
there is room for, and nothing behind the piece that did not fit. How a text is cut into pieces makes
no difference, so that an outline, which is written line by line and child by child, stops exactly
where the room ends.

Main results:

* `Sink.put_append`, `Sink.foldlM_put` — pieces are put like the text that they make up.
* `Node.writeOutlineFrom_eq_put` — the outline of a subtree is put like the text of its lines.
* `Node.writeOutline_stops_at_room` — what the sink has when writing stops, and when it does.
-/

namespace ImpSyntax

/-! ## Pieces -/

namespace Sink

variable {s : Sink} {piece : String}

theorem put_of_le (fits : piece.length ≤ s.room) :
    s.put piece = .ok ⟨s.room - piece.length, s.text ++ piece⟩ := if_pos fits

theorem put_of_lt (tooLong : s.room < piece.length) :
    s.put piece = .error ⟨0, s.text ++ String.ofList (piece.toList.take s.room)⟩ :=
  if_neg (Nat.not_le.mpr tooLong)

/-- Nothing always fits. -/
@[simp] theorem put_empty (s : Sink) : s.put "" = .ok s := by
  rw [put_of_le (by simp)]
  simp

/-- Two pieces are put like the text that they make up. If the first one does not fit, nothing of the
second one is put. -/
theorem put_append (s : Sink) (a b : String) :
    (s.put a >>= fun behind => behind.put b) = s.put (a ++ b) := by
  have length : (a ++ b).length = a.length + b.length := String.length_append a b
  by_cases first : a.length ≤ s.room
  · rw [put_of_le first]
    show Sink.put ⟨s.room - a.length, s.text ++ a⟩ b = s.put (a ++ b)
    by_cases second : b.length ≤ s.room - a.length
    · have fits : (a ++ b).length ≤ s.room := by omega
      rw [put_of_le second, put_of_le fits, length, Nat.sub_sub, String.append_assoc]
    · have tooLong : s.room < (a ++ b).length := by omega
      have taken : (a ++ b).toList.take s.room = a.toList ++ b.toList.take (s.room - a.length) := by
        have within : a.toList.length ≤ s.room := by rwa [String.length_toList]
        rw [String.toList_append, List.take_append, List.take_of_length_le within,
          String.length_toList]
      rw [put_of_lt (Nat.not_le.mp second), put_of_lt tooLong, taken]
      simp [String.append_assoc]
  · have stopped : s.room < a.length := Nat.not_le.mp first
    have tooLong : s.room < (a ++ b).length := by omega
    have taken : (a ++ b).toList.take s.room = a.toList.take s.room := by
      have within : s.room ≤ a.toList.length := by
        rw [String.length_toList]
        exact Nat.le_of_lt stopped
      rw [String.toList_append, List.take_append_of_le_length within]
    rw [put_of_lt stopped, put_of_lt tooLong, taken]
    rfl

/-- Where every part is put like its text, all of them are put like the text of all. -/
theorem foldlM_eq_put {α : Type} {write : Sink → α → Except Sink Sink} {text : α → String}
    {parts : List α} (h : ∀ part ∈ parts, ∀ s, write s part = s.put (text part)) (s : Sink) :
    parts.foldlM write s = s.put (String.join (parts.map text)) := by
  induction parts generalizing s with
  | nil =>
    simp
    rfl
  | cons part rest ih =>
    rw [List.forall_mem_cons] at h
    rw [List.foldlM_cons, h.1, List.map_cons, String.join_cons, ← put_append]
    congr 1
    funext behind
    exact ih h.2 behind

/-- Pieces are put like the text that they make up. -/
theorem foldlM_put (pieces : List String) (s : Sink) :
    pieces.foldlM Sink.put s = s.put (String.join pieces) := by
  have each : ∀ piece ∈ pieces, ∀ s : Sink, s.put piece = s.put (id piece) := fun _ _ _ => rfl
  rw [foldlM_eq_put each, List.map_id]

end Sink

/-! ## Outlines -/

theorem join_flatMap {α : Type} (texts : α → List String) (parts : List α) :
    String.join (parts.flatMap texts) =
      String.join (parts.map fun part => String.join (texts part)) := by
  induction parts with
  | nil => rfl
  | cons part rest ih =>
    rw [List.flatMap_cons, String.join_append, List.map_cons, String.join_cons, ih]

namespace Node

/-- The outline of a subtree is put like the text of its lines. -/
theorem writeOutlineFrom_eq_put (options : OutlineOptions) (offset : Nat) (role : Option Role)
    (n : Node) (s : Sink) :
    n.writeOutlineFrom options offset role s =
      s.put (String.join (n.outlineLines options offset role)) := by
  induction n using Node.induction generalizing offset role s with
  | step n ih =>
    have below : ∀ child ∈ n.children, ∀ s : Sink,
        child.2.writeOutlineFrom options (offset + OutlineOptions.indentation) (some child.1) s =
          s.put (String.join (child.2.outlineLines options (offset + OutlineOptions.indentation)
            (some child.1))) := by
      intro child among s
      exact ih child among _ _ s
    rw [writeOutlineFrom_eq, outlineLines_eq, String.join_cons, join_flatMap, ← Sink.put_append,
      Sink.foldlM_put]
    apply congrArg
    funext behind
    exact Sink.foldlM_eq_put below behind

/-- The outline is put into a sink like its text. -/
theorem writeOutline_eq_put (options : OutlineOptions) (n : Node) (s : Sink) :
    n.writeOutline options s = s.put (n.outline options) :=
  writeOutlineFrom_eq_put options options.offset none n s

-- the room ends inside the name, on the line of the child
example : (expr (.unary "-" (.location "abc" ⟨1, 2⟩) ⟨1, 1⟩)).writeOutline {} (.ofRoom 27) =
    .error ⟨0, "UnaryOp: -\n    Location: ab"⟩ := by cbv

/-- Writing into an empty sink stops exactly if the outline has more characters than the sink has
room for. The sink then has that many characters, the first ones of the outline, and no room; where
writing does not stop, it has the whole outline, and the room that is left. -/
theorem writeOutline_stops_at_room (options : OutlineOptions) (n : Node) (room : Nat) :
    ((∃ full, n.writeOutline options (.ofRoom room) = .error full) ↔
      room < (n.outline options).length) ∧
    (∀ full, n.writeOutline options (.ofRoom room) = .error full →
      full.text.toList = (n.outline options).toList.take room ∧ full.text.length = room ∧
        full.room = 0) ∧
    ∀ behind, n.writeOutline options (.ofRoom room) = .ok behind →
      behind.text = n.outline options ∧ behind.room + (n.outline options).length = room := by
  rw [writeOutline_eq_put]
  generalize n.outline options = text
  rcases Nat.lt_or_ge room text.length with tooLong | fits
  · have stopped : (Sink.ofRoom room).put text =
        .error ⟨0, String.ofList (text.toList.take room)⟩ := by
      rw [Sink.put_of_lt tooLong]
      simp [Sink.ofRoom]
    rw [stopped]
    refine ⟨⟨fun _ => tooLong, fun _ => ⟨_, rfl⟩⟩, ?_, ?_⟩
    · intro full same
      cases same
      have length : (text.toList.take room).length = room := by
        rw [List.length_take, String.length_toList]
        omega
      exact ⟨by simp, by simpa using length, rfl⟩
    · intro behind same
      cases same
  · have written : (Sink.ofRoom room).put text = .ok ⟨room - text.length, text⟩ := by
      rw [Sink.put_of_le fits]
      simp [Sink.ofRoom]
    rw [written]
    refine ⟨⟨?_, ?_⟩, ?_, ?_⟩
    · rintro ⟨full, same⟩
      cases same
    · intro tooLong
      omega
    · intro full same
      cases same
    · intro behind same
      cases same
      exact ⟨rfl, Nat.sub_add_cancel fits⟩

end Node

end ImpSyntax

import ConstrainedOpt.Proofs.Failure.Capture
import ConstrainedOpt.Registry.StopReasons

/-! # The lines of a trace

A trace writes the message of each layer with a line end after it. So it has the lines of all its messages, which are the
messages themselves as long as none of them breaks its line.
-/
namespace ConstrainedOpt

namespace Text

/-- A line without the carriage return of its end. -/
def chomp (line : List Char) : List Char := if line.getLast? = some '\r' then line.dropLast else line

/-- The lines between the line feeds of a text. What is left after the last of them is one more line, if there is anything. -/
def ofParts (parts : List (List Char)) : List String :=
  (parts.dropLast.map chomp ++ parts.getLast?.toList.filter (· ≠ [])).map String.ofList

/-- The lines of a text. Each ends in a line feed, with or without a carriage return before it. -/
def lines (text : String) : List String := ofParts (text.toList.splitOn '\n')

/-- Written with a line end after it the text is one line. -/
def IsLine (m : String) : Prop := '\n' ∉ m.toList ∧ m.toList.getLast? ≠ some '\r'

instance (m : String) : Decidable (IsLine m) := inferInstanceAs (Decidable (_ ∧ _))

theorem chomp_eq_self {line : List Char} : chomp line = line ↔ line.getLast? ≠ some '\r' := by
  unfold chomp
  split
  case isTrue h =>
    refine ⟨fun heq => ?_, fun hne => absurd h hne⟩
    have hlength := congrArg List.length heq
    rw [List.length_dropLast] at hlength
    have hnil : line = [] := List.length_eq_zero_iff.mp (by omega)
    rw [hnil] at h
    cases h
  case isFalse h => exact ⟨fun _ => h, fun _ => rfl⟩

theorem length_splitOn (l : List Char) : (l.splitOn '\n').length = l.count '\n' + 1 := by
  induction l with
  | nil => rfl
  | cons c l ih =>
    rw [List.splitOn_cons_eq_if_modifyHead, List.count_cons]
    split
    case isTrue hc => rw [List.length_cons, ih]
    case isFalse hc => rw [List.length_modifyHead, ih]

theorem ofParts_append (done rest : List (List Char)) (h : rest ≠ []) :
    ofParts (done ++ rest) = (done.map fun l => String.ofList (chomp l)) ++ ofParts rest := by
  have hlast : (done ++ rest).getLast? = rest.getLast? := by
    rw [List.getLast?_append, List.getLast?_eq_some_getLast h, Option.some_or]
  unfold ofParts
  rw [List.dropLast_append_of_ne_nil h, hlast, List.map_append (f := chomp), List.append_assoc, List.map_append,
    List.map_map]
  rfl

theorem lines_append (m rest : String) :
    lines (m ++ "\n" ++ rest) = ((m.toList.splitOn '\n').map fun l => String.ofList (chomp l)) ++ lines rest := by
  have hsplit : (m ++ "\n" ++ rest).toList.splitOn '\n' = m.toList.splitOn '\n' ++ rest.toList.splitOn '\n' := by
    rw [String.toList_append, String.toList_append, List.append_assoc]
    exact List.splitOn_append_cons_self _ _
  unfold lines
  rw [hsplit, ofParts_append _ _ (List.splitOn_ne_nil _ _)]

/-- The lines of a text with a line end after it. -/
theorem lines_ended (m : String) :
    lines (m ++ "\n") = (m.toList.splitOn '\n').map fun l => String.ofList (chomp l) := by
  have h := lines_append m ""
  rwa [String.append_empty, show lines "" = [] from rfl, List.append_nil] at h

theorem length_lines_ended (m : String) : (lines (m ++ "\n")).length = m.toList.count '\n' + 1 := by
  rw [lines_ended, List.length_map, length_splitOn]

theorem lines_ended_iff (m : String) : lines (m ++ "\n") = [m] ↔ IsLine m := by
  constructor
  · intro h
    have hlength := length_lines_ended m
    rw [h, List.length_singleton] at hlength
    have hfeed : '\n' ∉ m.toList := List.count_eq_zero.mp (by omega)
    refine ⟨hfeed, chomp_eq_self.mp ?_⟩
    rw [lines_ended, List.splitOn_eq_singleton hfeed, List.map_singleton] at h
    have hchomped := congrArg String.toList (List.cons.inj h).1
    rwa [String.toList_ofList] at hchomped
  · rintro ⟨hfeed, hreturn⟩
    rw [lines_ended, List.splitOn_eq_singleton hfeed, List.map_singleton, chomp_eq_self.mpr hreturn, String.ofList_toList]

/-- Texts written with a line end after each. -/
theorem lines_join (ms : List String) :
    lines (String.join (ms.flatMap fun m => [m, "\n"])) = ms.flatMap fun m => lines (m ++ "\n") := by
  induction ms with
  | nil => rfl
  | cons m ms ih =>
    have htext : String.join ((m :: ms).flatMap fun m => [m, "\n"])
        = m ++ "\n" ++ String.join (ms.flatMap fun m => [m, "\n"]) := by
      rw [List.flatMap_cons, String.join_append, String.join_cons, String.join_cons, String.join_nil, String.append_empty]
    rw [htext, lines_append, List.flatMap_cons, ih, lines_ended]

theorem length_flatMap_lines (ms : List String) :
    (ms.flatMap fun m => lines (m ++ "\n")).length = ms.length + (String.join ms).toList.count '\n' := by
  induction ms with
  | nil => rfl
  | cons m ms ih =>
    rw [List.flatMap_cons, List.length_append, length_lines_ended, ih, List.length_cons, String.join_cons,
      String.toList_append, List.count_append]
    omega

/-- Texts with a line end after each are their own lines exactly if each of them is a line. -/
theorem flatMap_lines_iff (ms : List String) : ms.flatMap (fun m => lines (m ++ "\n")) = ms ↔ ∀ m ∈ ms, IsLine m := by
  induction ms with
  | nil => exact ⟨fun _ _ hm => absurd hm (List.not_mem_nil), fun _ => rfl⟩
  | cons m ms ih =>
    rw [List.flatMap_cons, List.forall_mem_cons, ← lines_ended_iff, ← ih]
    constructor
    · intro h
      -- The texts after the first have at least as many lines as texts, so the first has one.
      have hfirst := length_lines_ended m
      have hrest := length_flatMap_lines ms
      have hlength := congrArg List.length h
      rw [List.length_append, List.length_cons] at hlength
      exact List.append_inj h (by rw [List.length_singleton]; omega)
    · rintro ⟨hfirst, hrest⟩
      rw [hfirst, hrest]
      rfl

end Text

namespace Failure

/-- What the trace says of a cause that cannot be inspected. -/
def placeholder : Failure → List String
  | plain _ => []
  | unexplained _ => [unknownCause]
  | caused _ inner => placeholder inner

theorem pieces_eq (f : Failure) : f.pieces = (f.messages ++ f.placeholder).flatMap fun m => [m, "\n"] := by
  induction f with
  | plain m => rfl
  | unexplained m => rfl
  | caused m inner ih =>
    rw [pieces, ih]
    rfl

theorem count_placeholder (f : Failure) : (String.join f.placeholder).toList.count '\n' = 0 := by
  induction f with
  | plain _ => rfl
  | unexplained _ =>
    change (String.join [unknownCause]).toList.count '\n' = 0
    decide
  | caused _ inner ih => exact ih

theorem isLine_of_mem_placeholder {f : Failure} {m : String} (h : m ∈ f.placeholder) : Text.IsLine m := by
  induction f with
  | plain _ => cases h
  | unexplained _ =>
    rw [List.mem_singleton.mp h]
    decide
  | caused _ inner ih => exact ih h

/-- The lines of a trace are those of its messages, outermost first, and the one for an unknown cause. They are the messages,
one for each layer, exactly if none of the messages breaks its line. -/
theorem lines_trace (f : Failure) :
    Text.lines f.trace = (f.messages ++ f.placeholder).flatMap (fun m => Text.lines (m ++ "\n")) ∧
    (Text.lines f.trace).length = f.depth + f.placeholder.length + (String.join f.messages).toList.count '\n' ∧
    (Text.lines f.trace = f.messages ++ f.placeholder ↔ ∀ m ∈ f.messages, Text.IsLine m) := by
  have hlines : Text.lines f.trace = (f.messages ++ f.placeholder).flatMap fun m => Text.lines (m ++ "\n") := by
    rw [trace, pieces_eq, Text.lines_join]
  refine ⟨hlines, ?_, ?_⟩
  · rw [hlines, Text.length_flatMap_lines, List.length_append, length_messages, String.join_append, String.toList_append,
      List.count_append, count_placeholder, Nat.add_zero]
  · rw [hlines, Text.flatMap_lines_iff, List.forall_mem_append]
    exact and_iff_left fun m hm => isLine_of_mem_placeholder hm

/-- The failure of a text that is none of the stop reasons has one layer. Its message repeats the text, and so its trace
can have two lines. -/
theorem two_lines_of_one_layer :
    ∃ e : InvalidValue, Registry.parse (α := Stop) "Side\nways" = .error e ∧
      (plain e.message).depth = 1 ∧ (plain e.message).placeholder = [] ∧ (Text.lines (plain e.message).trace).length = 2 := by
  refine ⟨⟨"OptimizationStop", "Side\nways"⟩, ?_, rfl, rfl, ?_⟩
  · rfl
  · decide

end Failure

end ConstrainedOpt

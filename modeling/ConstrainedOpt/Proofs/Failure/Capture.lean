import ConstrainedOpt.Failure.Source

/-! # Captured and written failures

A failure captured from an error has the messages of the error and of all its sources. Capturing a failure loses its unknown
cause and nothing else, and a writer that is full gets a prefix of the trace.
-/
namespace ConstrainedOpt

/-! ### Capturing -/

namespace SourcedError

theorem collect_eq (e : SourcedError) (collected : List String) : e.collect collected = collected ++ e.chain.map message := by
  induction e generalizing collected with
  | root m => rfl
  | arising m source ih =>
    rw [collect, ih, List.append_assoc]
    rfl

theorem chain_ne_nil (e : SourcedError) : e.chain ≠ [] := by
  cases e with
  | root m => exact List.cons_ne_nil _ _
  | arising m source => exact List.cons_ne_nil _ _

end SourcedError

namespace Failure

theorem enclose_assembled (ms : List String) (m : String) :
    enclose (ms.reverse.foldl enclose none) m = some (assemble (m :: ms)) := by
  unfold assemble
  rw [List.reverse_cons, List.foldl_append]
  cases ms.reverse.foldl enclose none with
  | none => rfl
  | some f => rfl

/-- Layers put together one by one are those of the messages. -/
theorem assemble_eq (ms : List String) : assemble ms = ofMessages ms := by
  induction ms with
  | nil => rfl
  | cons m ms ih =>
    cases ms with
    | nil => rfl
    | cons m' ms =>
      have hinner : (m' :: ms).reverse.foldl enclose none = some (assemble (m' :: ms)) := by
        rw [List.reverse_cons, List.foldl_append]
        exact enclose_assembled ms m'
      have houter := enclose_assembled (m' :: ms) m
      rw [hinner, ih] at houter
      exact (Option.some.inj houter).symm

theorem messages_ofMessages {ms : List String} (h : ms ≠ []) : (ofMessages ms).messages = ms := by
  induction ms with
  | nil => exact absurd rfl h
  | cons m ms ih =>
    cases ms with
    | nil => rfl
    | cons m' ms => exact congrArg (m :: ·) (ih (List.cons_ne_nil _ _))

theorem ofError_eq (e : SourcedError) : ofError e = ofMessages (e.chain.map SourcedError.message) := by
  unfold ofError
  rw [e.collect_eq, List.nil_append, assemble_eq]

theorem messages_ofError (e : SourcedError) : (ofError e).messages = e.chain.map SourcedError.message := by
  rw [ofError_eq]
  exact messages_ofMessages (mt List.map_eq_nil_iff.mp e.chain_ne_nil)

theorem length_messages (f : Failure) : f.messages.length = f.depth := by
  induction f with
  | plain m => rfl
  | unexplained m => rfl
  | caused m inner ih => exact congrArg (· + 1) ih

/-- The sources of a failure show the messages of its layers. -/
theorem chain_asError (f : Failure) : f.asError.chain.map SourcedError.message = f.messages := by
  induction f with
  | plain m => rfl
  | unexplained m => rfl
  | caused m inner ih => exact congrArg (m :: ·) ih

theorem ofError_asError (f : Failure) : ofError f.asError = f.capture := by
  rw [ofError_eq, chain_asError]
  rfl

/-- The failure without its unknown cause, if it has one. -/
def known : Failure → Failure
  | plain m | unexplained m => plain m
  | caused m inner => caused m inner.known

theorem messages_ne_nil (f : Failure) : f.messages ≠ [] := by
  cases f with
  | plain m => exact List.cons_ne_nil _ _
  | unexplained m => exact List.cons_ne_nil _ _
  | caused m inner => exact List.cons_ne_nil _ _

theorem capture_eq_known (f : Failure) : f.capture = f.known := by
  induction f with
  | plain m => rfl
  | unexplained m => rfl
  | caused m inner ih =>
    have hcapture : (caused m inner).capture = caused m inner.capture := by
      unfold capture
      obtain ⟨m', ms, hms⟩ := List.exists_cons_of_ne_nil inner.messages_ne_nil
      rw [messages, hms]
      rfl
    rw [hcapture, ih]
    rfl

theorem messages_known (f : Failure) : f.known.messages = f.messages := by
  induction f with
  | plain m => rfl
  | unexplained m => rfl
  | caused m inner ih => exact congrArg (m :: ·) ih

/-! ### Writing -/

theorem writePieces_eq (room : Nat) (ps : List String) :
    writePieces room ps = ((String.join ps).toList.take room, decide ((String.join ps).length ≤ room)) := by
  induction ps generalizing room with
  | nil => simp [writePieces]
  | cons p ps ih =>
    have htext : (String.join (p :: ps)).toList = p.toList ++ (String.join ps).toList := by
      rw [String.join_cons, String.toList_append]
    have hlength : (String.join (p :: ps)).length = p.length + (String.join ps).length := by
      rw [String.join_cons, String.length_append]
    rw [writePieces, htext, hlength, List.take_append, String.length_toList]
    split
    case isTrue hfits =>
      have hwhole : p.toList.take room = p.toList := List.take_of_length_le (by rwa [String.length_toList])
      rw [ih, hwhole, Prod.mk.injEq]
      exact ⟨rfl, decide_eq_decide.mpr (Nat.le_sub_iff_add_le' hfits)⟩
    case isFalse hfull =>
      have hnone : room - p.length = 0 := by omega
      rw [hnone, List.take_zero, List.append_nil, Prod.mk.injEq]
      exact ⟨rfl, (decide_eq_false (by omega)).symm⟩

/-- Nothing is lost: a failure captured from an error has the messages of its chain and shows them as its own sources; one
captured from a failure is that failure with its causes that are known, and is captured unchanged; and a writer with room
for `room` characters takes as many of the trace, all of them without a fault. -/
theorem capture_and_write_whole :
    (∀ e : SourcedError, (ofError e).messages = e.chain.map SourcedError.message ∧ (ofError e).depth = e.chain.length ∧
      (ofError e).asError.chain.map SourcedError.message = e.chain.map SourcedError.message ∧
      ofError (ofError e).asError = ofError e) ∧
    ∀ f : Failure, ofError f.asError = f.capture ∧ f.capture = f.known ∧ f.capture.capture = f.capture ∧
      ∀ room, f.writeTo room = (String.ofList (f.trace.toList.take room), decide (f.trace.length ≤ room)) := by
  have hcapture : ∀ f : Failure, f.capture.capture = f.capture := by
    intro f
    change ofMessages f.capture.messages = ofMessages f.messages
    rw [capture_eq_known, messages_known]
  refine ⟨fun e => ?_, fun f => ⟨ofError_asError f, capture_eq_known f, hcapture f, fun room => ?_⟩⟩
  · have hmessages := messages_ofError e
    refine ⟨hmessages, ?_, (chain_asError _).trans hmessages, ?_⟩
    · rw [← length_messages, hmessages, List.length_map]
    · rw [ofError_asError]
      unfold capture
      rw [hmessages, ofError_eq]
  · unfold writeTo
    rw [writePieces_eq]
    rfl

end Failure
end ConstrainedOpt

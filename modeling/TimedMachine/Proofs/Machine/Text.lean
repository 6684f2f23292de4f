import TimedMachine.Machine.Json
import TimedMachine.Proofs.Json.Text
import TimedMachine.Proofs.Machine.OfToken

/-!
# The text of a machine is the text of one machine

The JSON value of a machine tells all of it: an optional part has a member of its own or none, and
whatever a part may be has a form of its own (`Machine.toJson_injective`). The numbers of a machine
that was loaded are finite, so the text of that value tells the value as well. Two machines have one
check value only if they are the same or CRC-32C gives one value for two texts
(`Machine.eq_of_text_eq`).
-/

namespace TimedMachine

open Function (Injective)

/-! ## Members -/

namespace Json

variable {key : String} {a b : Option Json} {rest rest' : List (String × Json)}

/-- The only key of an optional member. -/
@[simp] theorem mem_keys_optional {k : String} :
    k ∈ (optional key a).map (·.1) ↔ k = key ∧ a.isSome := by
  cases a <;> simp [optional]

/-- The only value of an optional member. -/
@[simp] theorem values_optional : (optional key a).map (·.2) = a.toList := by
  cases a <;> simp [optional]

/-- An optional member and the members after it are told by the row of them, if its key comes only
once. -/
theorem optional_append_inj (hrest : key ∉ rest.map (·.1)) (hrest' : key ∉ rest'.map (·.1))
    (h : optional key a ++ rest = optional key b ++ rest') : a = b ∧ rest = rest' := by
  cases a with
  | none =>
    cases b with
    | none => exact ⟨rfl, h⟩
    | some v =>
      obtain rfl : rest = (key, v) :: rest' := h
      exact absurd (by simp) hrest
  | some v =>
    cases b with
    | none =>
      obtain rfl : (key, v) :: rest = rest' := h
      exact absurd (by simp) hrest'
    | some w =>
      obtain ⟨hhead, htail⟩ := List.cons.inj h
      exact ⟨congrArg some (Prod.mk.inj hhead).2, htail⟩

/-- An optional member that is the last is told by the row. -/
theorem optional_injective (key : String) : Injective (optional key) := by
  intro a b h
  have hnil : optional key a ++ [] = optional key b ++ [] := by rw [h]
  exact (optional_append_inj (by simp) (by simp) hnil).1

theorem string_injective : Injective Json.string := fun _ _ h => string.inj h

theorem number_injective : Injective Json.number := fun _ _ h => number.inj h

/-- Lists are told by the arrays of what their items are told by. -/
theorem array_map_injective {α : Type} {f : α → Json} (hf : Injective f) :
    Injective fun as : List α => array (as.map f) :=
  fun _ _ h => List.map_injective_iff.2 hf (array.inj h)

theorem strings_injective : Injective strings := array_map_injective string_injective

end Json

/-! ## Parts of machines -/

theorem Timer.toJson_injective : Injective Timer.toJson := by
  rintro ⟨name, interval⟩ ⟨name', interval'⟩ h
  simpa [toJson] using h

theorem Argument.toJson_injective : Injective Argument.toJson := by
  rintro ⟨name, type⟩ ⟨name', type'⟩ h
  simpa [toJson] using h

theorem Event.toJson_injective : Injective Event.toJson := by
  rintro ⟨name, args, afterStates, onlyOnce⟩ ⟨name', args', afterStates', onlyOnce'⟩ h
  simp only [toJson, List.cons_append, List.nil_append, Json.object.injEq, List.cons.injEq,
    Prod.mk.injEq, true_and, Json.string.injEq] at h
  obtain ⟨rfl, hargs, hrest⟩ := h
  obtain ⟨hstates, honce⟩ := Json.optional_append_inj (by simp) (by simp) hrest
  obtain rfl := Json.array_map_injective Argument.toJson_injective hargs
  obtain rfl := Option.map_injective Json.strings_injective hstates
  simpa using honce

theorem Target.toJson_injective : Injective Target.toJson := by
  intro t t' h
  cases t <;> cases t' <;> simp_all [toJson, Json.tagged]

theorem Choice.toJson_injective : Injective Choice.toJson := by
  rintro ⟨name, target⟩ ⟨name', target'⟩ h
  simp only [toJson, Json.object.injEq, List.cons.injEq, Prod.mk.injEq, true_and, and_true,
    Json.string.injEq] at h
  obtain ⟨rfl, htarget⟩ := h
  rw [Target.toJson_injective htarget]

theorem decisionToJson_injective : Injective decisionToJson := by
  intro cs cs' h
  simp only [decisionToJson, Json.tagged, Json.object.injEq, List.cons.injEq, Prod.mk.injEq,
    true_and, and_true] at h
  exact Json.array_map_injective Choice.toJson_injective h

theorem Targets.toJson_injective : Injective Targets.toJson := by
  intro t t' h
  cases t with
  | single target =>
    cases t' with
    | single target' =>
      simp only [toJson, Json.tagged, Json.object.injEq, List.cons.injEq, Prod.mk.injEq,
        true_and, and_true] at h
      rw [Target.toJson_injective h]
    | decision => simp [toJson, Json.tagged, decisionToJson] at h
  | decision choices =>
    cases t' with
    | single => simp [toJson, Json.tagged, decisionToJson] at h
    | decision choices' => rw [decisionToJson_injective h]

theorem InvokerKind.text_injective : Injective InvokerKind.text := by
  intro k k' h
  cases k <;> cases k' <;> first | rfl | exact absurd h (by decide)

theorem CallbackShape.text_injective : Injective CallbackShape.text := fun c c' h =>
  Option.some.inj (by rw [← ofName?_text c, h, ofName?_text])

theorem Edge.toJson_injective : Injective Edge.toJson := by
  rintro ⟨invoker, kind, targets, callbacks, comment⟩ ⟨invoker', kind', targets', callbacks',
    comment'⟩ h
  simp only [toJson, List.cons_append, List.nil_append, Json.object.injEq, List.cons.injEq,
    Prod.mk.injEq, true_and, Json.string.injEq] at h
  obtain ⟨rfl, hkind, htargets, hcallbacks, hcomment⟩ := h
  obtain rfl := InvokerKind.text_injective hkind
  obtain rfl := Targets.toJson_injective htargets
  obtain rfl := CallbackShape.text_injective.list_map (Json.strings_injective hcallbacks)
  obtain rfl := Option.map_injective Json.string_injective (Json.optional_injective _ hcomment)
  rfl

theorem DelayRule.toJson_injective : Injective DelayRule.toJson := by
  rintro ⟨set, multiplier, increment, min, max⟩ ⟨set', multiplier', increment', min', max'⟩ h
  simp only [toJson, Json.object.injEq, List.append_assoc] at h
  have hnumber := Option.map_injective Json.number_injective
  obtain ⟨hset, h⟩ := Json.optional_append_inj (by simp) (by simp) h
  obtain ⟨hmultiplier, h⟩ := Json.optional_append_inj (by simp) (by simp) h
  obtain ⟨hincrement, h⟩ := Json.optional_append_inj (by simp) (by simp) h
  obtain ⟨hmin, h⟩ := Json.optional_append_inj (by simp) (by simp) h
  have hmax := Json.optional_injective _ h
  rw [hnumber hset, hnumber hmultiplier, hnumber hincrement, hnumber hmin, hnumber hmax]

theorem TimerStart.toJson_injective : Injective TimerStart.toJson := by
  rintro ⟨timer, rule⟩ ⟨timer', rule'⟩ h
  simp only [toJson, List.cons_append, List.nil_append, Json.object.injEq, List.cons.injEq,
    Prod.mk.injEq, true_and, Json.string.injEq] at h
  obtain ⟨rfl, hrule⟩ := h
  rw [Option.map_injective DelayRule.toJson_injective (Json.optional_injective _ hrule)]

theorem OnEnter.toJson_injective : Injective OnEnter.toJson := by
  rintro ⟨comment⟩ ⟨comment'⟩ h
  obtain rfl := Option.map_injective Json.string_injective
    (Json.optional_injective _ (Json.object.inj h))
  rfl

theorem NextState.toJson_injective : Injective NextState.toJson := by
  intro n n' h
  cases n with
  | state name =>
    cases n' with
    | state name' => simpa [toJson, Json.tagged] using h
    | decision => simp [toJson, Json.tagged, decisionToJson] at h
  | decision choices =>
    cases n' with
    | state => simp [toJson, Json.tagged, decisionToJson] at h
    | decision choices' => rw [decisionToJson_injective h]

theorem Shape.toJson_injective : Injective Shape.toJson := by
  intro s s' h
  cases s with
  | branching es ts =>
    cases s' with
    | branching es' ts' =>
      simp only [toJson, Json.tagged, Json.object.injEq, List.cons.injEq, Prod.mk.injEq,
        true_and, and_true] at h
      rw [Json.array_map_injective Edge.toJson_injective h.1,
        Json.array_map_injective Edge.toJson_injective h.2]
    | passThrough | final => simp [toJson, Json.tagged] at h
  | passThrough next =>
    cases s' with
    | passThrough next' =>
      simp only [toJson, Json.tagged, Json.object.injEq, List.cons.injEq, Prod.mk.injEq,
        true_and, and_true] at h
      rw [NextState.toJson_injective h]
    | branching | final => simp [toJson, Json.tagged] at h
  | final =>
    cases s' with
    | final => rfl
    | branching | passThrough => simp [toJson, Json.tagged] at h

theorem State.toJson_injective : Injective State.toJson := by
  rintro ⟨name, starts, stops, onEnter, shape⟩ ⟨name', starts', stops', onEnter', shape'⟩ h
  simp only [toJson, List.cons_append, List.nil_append, Json.object.injEq, List.cons.injEq,
    Prod.mk.injEq, true_and, Json.string.injEq] at h
  obtain ⟨rfl, hstarts, hstops, hrest⟩ := h
  obtain ⟨honEnter, hshape⟩ := Json.optional_append_inj (by simp) (by simp) hrest
  simp only [List.cons.injEq, Prod.mk.injEq, true_and, and_true] at hshape
  obtain rfl := Json.array_map_injective TimerStart.toJson_injective hstarts
  obtain rfl := Json.strings_injective hstops
  obtain rfl := Option.map_injective OnEnter.toJson_injective honEnter
  obtain rfl := Shape.toJson_injective hshape
  rfl

/-- The JSON value of a machine tells the machine. -/
theorem Machine.toJson_injective : Injective Machine.toJson := by
  rintro ⟨timers, events, states, start⟩ ⟨timers', events', states', start'⟩ h
  simp only [toJson, Json.object.injEq, List.cons.injEq, Prod.mk.injEq, true_and, and_true,
    Json.string.injEq] at h
  obtain ⟨htimers, hevents, hstates, rfl⟩ := h
  obtain rfl := Json.array_map_injective Timer.toJson_injective htimers
  obtain rfl := Json.array_map_injective Event.toJson_injective hevents
  obtain rfl := Json.array_map_injective State.toJson_injective hstates
  rfl

/-! ## Finite numbers -/

section Finite

open Json

theorem Json.isFinite_strings (ss : List String) : (strings ss).IsFinite := by
  simp [strings, IsFinite.string]

theorem Argument.isFinite_toJson (a : Argument) : a.toJson.IsFinite := by
  simp [toJson, IsFinite.string]

theorem Event.isFinite_toJson (e : Event) : e.toJson.IsFinite := by
  simp [toJson, or_imp, forall_and, IsFinite.string, IsFinite.bool, Argument.isFinite_toJson,
    isFinite_strings]

theorem Target.isFinite_toJson (t : Target) : t.toJson.IsFinite := by
  cases t <;> simp [toJson, tagged, IsFinite.string]

theorem isFinite_decisionToJson (cs : List Choice) : (decisionToJson cs).IsFinite := by
  simp [decisionToJson, tagged, Choice.toJson, IsFinite.string, Target.isFinite_toJson]

theorem Edge.isFinite_toJson (e : Edge) : e.toJson.IsFinite := by
  have htargets : e.targets.toJson.IsFinite := by
    cases e.targets <;>
      simp [Targets.toJson, tagged, Target.isFinite_toJson, isFinite_decisionToJson]
  simp [toJson, IsFinite.string, isFinite_strings, htargets]

theorem Shape.isFinite_toJson (s : Shape) : s.toJson.IsFinite := by
  cases s with
  | branching es ts => simp [toJson, tagged, Edge.isFinite_toJson]
  | passThrough next =>
    cases next <;>
      simp [toJson, NextState.toJson, tagged, IsFinite.string, isFinite_decisionToJson]
  | final => exact .string

/-- The numbers of a well-formed rule are finite. -/
theorem DelayRule.WellFormed.isFinite_toJson {r : DelayRule Float} (h : r.WellFormed) :
    r.toJson.IsFinite := by
  simp only [toJson, isFinite_object, List.map_append, values_optional, List.mem_append,
    Option.mem_toList, Option.map_eq_some_iff]
  rintro v ((((⟨x, hx, rfl⟩ | ⟨x, hx, rfl⟩) | ⟨x, hx, rfl⟩) | ⟨x, hx, rfl⟩) | ⟨x, hx, rfl⟩)
  exacts [.number (h.set x hx).1, .number (h.multiplier x hx).1, .number (h.increment x hx),
    .number (h.min x hx), .number (h.max x hx)]

/-- The numbers of a well-formed machine are finite. -/
theorem Machine.WellFormed.isFinite_toJson {m : Machine} (h : m.WellFormed) :
    m.toJson.IsFinite := by
  have htimers : ∀ t ∈ m.timers, t.toJson.IsFinite := fun t ht => by
    simp [Timer.toJson, IsFinite.string, (h.timer t ht).1]
  have hstates : ∀ s ∈ m.states, s.toJson.IsFinite := fun s hs => by
    have hstarts : ∀ start ∈ s.startTimers, start.toJson.IsFinite := fun start hstart => by
      have hrule (r : DelayRule Float) (hr : start.rule = some r) : r.toJson.IsFinite :=
        ((h.state s hs).starts_rule start hstart r hr).isFinite_toJson
      simpa [TimerStart.toJson, IsFinite.string] using hrule
    have honEnter (o : OnEnter) : o.toJson.IsFinite := by simp [OnEnter.toJson, IsFinite.string]
    simpa [State.toJson, or_imp, forall_and, IsFinite.string, isFinite_strings,
      Shape.isFinite_toJson, honEnter] using hstarts
  simpa [toJson, or_imp, forall_and, IsFinite.string, Event.isFinite_toJson] using
    ⟨htimers, hstates⟩

end Finite

/-! ## Check values -/

namespace Crc32c

/-- The number that a row of hexadecimal digits writes. -/
def numberOfHex (cs : List Char) : Nat :=
  cs.foldl (fun n c => 16 * n + (Json.Quoted.hexValue? c).getD 0) 0

theorem hexValue?_digitChar : ∀ d < 16, Json.Quoted.hexValue? (Nat.digitChar d) = some d := by
  decide

theorem numberOfHex_toDigits (n : Nat) : numberOfHex (Nat.toDigits 16 n) = n := by
  induction n using Nat.strong_induction_on with
  | _ n ih =>
    rw [Nat.toDigits_eq_if (by decide)]
    split
    · next hn => simp [numberOfHex, hexValue?_digitChar n hn]
    · next hn =>
      have hdiv := ih (n / 16) (by omega)
      rw [numberOfHex] at hdiv
      rw [numberOfHex, List.foldl_append, hdiv]
      simp [hexValue?_digitChar (n % 16) (Nat.mod_lt _ (by decide))]
      omega

/-- Zeros before the digits add nothing. -/
theorem numberOfHex_replicate_zero_append (n : Nat) (cs : List Char) :
    numberOfHex (List.replicate n '0' ++ cs) = numberOfHex cs := by
  induction n with
  | zero => rfl
  | succ n ih => exact ih

/-- Eight digits tell the word. -/
theorem hex_injective : Injective hex := by
  intro w w' h
  have hnumber (w : UInt32) : numberOfHex (hex w).toList = w.toNat := by
    rw [hex, String.toList_ofList, numberOfHex_replicate_zero_append]
    exact numberOfHex_toDigits w.toNat
  exact UInt32.toNat_inj.1 (by rw [← hnumber w, h, hnumber])

end Crc32c

/-! ## Texts of machines -/

variable {t t' : Token} {m m' : Machine}

/-- Two machines that were loaded are the same if the bytes of their texts are. So they have one
check value only if they are the same, or CRC-32C gives one value for the two different texts. -/
theorem Machine.eq_of_text_eq (h : Machine.ofToken t = .ok m) (h' : Machine.ofToken t' = .ok m') :
    (m.toJson.text.toUTF8 = m'.toJson.text.toUTF8 → m = m') ∧
    (m.checksum = m'.checksum → m ≠ m' →
      m.toJson.text.toUTF8 ≠ m'.toJson.text.toUTF8 ∧
        Crc32c.crc m.toJson.text.toUTF8 = Crc32c.crc m'.toJson.text.toUTF8) := by
  have heq (htext : m.toJson.text.toUTF8 = m'.toJson.text.toUTF8) : m = m' :=
    toJson_injective (Json.text_inj (wellFormed_of_ofToken h).isFinite_toJson
      (wellFormed_of_ofToken h').isFinite_toJson (String.toByteArray_inj.1 htext))
  exact ⟨heq, fun hchecksum hne => ⟨fun htext => hne (heq htext), Crc32c.hex_injective hchecksum⟩⟩

/-- A specification of one final state. -/
def oneState : Json := .object
  [("events", .object []), ("states", .object [("Home", .object [("final", .bool true)])]),
    ("start_state", .string "Home")]

/-- The machine of that specification. -/
def oneStateMachine : Machine where
  timers := []
  events := []
  states := [⟨"Home", [], [], none, .final⟩]
  startState := "Home"

/-- The machine of the door and that of one state have different texts. -/
theorem eq_of_text_eq_oneState :
    Machine.ofToken (.ofJson door) = .ok doorMachine ∧
      Machine.ofToken (.ofJson oneState) = .ok oneStateMachine ∧
      doorMachine.toJson.text.toUTF8 ≠ oneStateMachine.toJson.text.toUTF8 := by
  have h : Machine.ofToken (.ofJson oneState) = .ok oneStateMachine := by rfl
  have hne : doorMachine ≠ oneStateMachine := by simp [doorMachine, oneStateMachine]
  exact ⟨ofToken_door, h, fun htext => hne ((Machine.eq_of_text_eq ofToken_door h).1 htext)⟩

end TimedMachine

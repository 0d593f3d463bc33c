import OctoberHarness.Link.Values

/-! A payload read back is the payload sent, unless a byte leaf has a `toJSON`; and what is
read of a payload received. -/
namespace OctoberHarness.Payload

open Value List

@[simp] theorem leaves_arr (items : List Value) : (Value.arr items).leaves = items.flatMap leaves := by
  rw [leaves]
  induction items with
  | nil => rfl
  | cons x rest ih => rw [leaves.leavesItems, ih, flatMap_cons]

@[simp] theorem leaves_obj (fields : List (JsString × Value)) :
    (Value.obj fields).leaves = fields.flatMap fun f => f.2.leaves := by
  rw [leaves]
  induction fields with
  | nil => rfl
  | cons f rest ih => rw [leaves.leavesFields, ih, flatMap_cons]

/-- The leaves that the replacer sees as they are. -/
def Value.segments (value : Value) : List Bytes :=
  value.leaves.filter fun leaf => leaf.instanceOf = .uint8Array

/-- A value without reserved keys is printed, with its segments behind the earlier ones, and
read back where no leaf has a `toJSON`. -/
def Prints (value : Value) : Prop :=
  ∀ earlier, ∃ json, replaced value earlier = .ok (json, earlier ++ value.segments) ∧ json.Strict ∧
    (value.segments = value.leaves → ∀ later, resolveSegments (earlier ++ value.leaves ++ later) json = .ok value)

theorem strict_marker (index : Nat) : (marker index).Strict := by
  have hKeys : OwnKeys [js "$bytes"] := ⟨nodup_singleton _, pairwise_singleton _ _⟩
  rw [marker, JsonValue.strict_obj]
  exact ⟨hKeys, fun f hf => by rw [mem_singleton.mp hf]; trivial⟩

theorem strict_toJSON (leaf : Bytes) : leaf.toJSON.Strict := by
  have hKeys : OwnKeys [js "type", js "data"] := ⟨by decide, by decide⟩
  have hData : (JsonValue.arr (leaf.data.map fun byte => numberJson byte.toNat)).Strict := by
    rw [JsonValue.strict_arr]
    intro x hx
    obtain ⟨byte, -, rfl⟩ := mem_map.mp hx
    trivial
  rw [Bytes.toJSON, JsonValue.strict_obj]
  refine ⟨hKeys, fun f hf => ?_⟩
  rcases mem_cons.mp hf with rfl | hf
  · trivial
  · rw [mem_singleton.mp hf]
    exact hData

theorem resolve_marker (segments : List Bytes) {index : Nat} {leaf : Bytes} (hLeaf : segments[index]? = some leaf) :
    resolveSegments segments (marker index) = .ok (.bytes leaf) := by
  have hReference : reference segments [(js "$bytes", numberJson index)] = some leaf := by
    rw [numberJson, reference, JsNumber.toNat?_ofNat, Option.bind_some, hLeaf]
  rw [marker, resolveSegments, if_pos (by simp), hReference]

theorem prints_bytes (leaf : Bytes) : Prints (.bytes leaf) := by
  intro earlier
  cases hClass : leaf.instanceOf with
  | buffer =>
    have hNone : (Value.bytes leaf).segments = [] := by simp [segments, leaves, hClass]
    refine ⟨leaf.toJSON, ?_, strict_toJSON leaf, fun hAll => ?_⟩
    · rw [replaced, if_pos hClass, hNone, append_nil]
    · rw [hNone] at hAll
      cases hAll
  | uint8Array =>
    have hOne : (Value.bytes leaf).segments = [leaf] := by simp [segments, leaves, hClass]
    refine ⟨marker earlier.length, ?_, strict_marker _, fun _ later => ?_⟩
    · rw [replaced, if_neg (by rw [hClass]; decide), hOne]
    · apply resolve_marker
      rw [leaves, append_assoc, getElem?_append_right (Nat.le_refl _), Nat.sub_self]
      rfl

theorem filter_append_eq {first second : List Bytes} {keep : Bytes → Bool}
    (h : (first ++ second).filter keep = first ++ second) : first.filter keep = first ∧ second.filter keep = second := by
  rw [filter_eq_self] at h ⊢
  rw [filter_eq_self]
  exact ⟨fun leaf hLeaf => h leaf (mem_append_left _ hLeaf), fun leaf hLeaf => h leaf (mem_append_right _ hLeaf)⟩

variable {items : List Value}

theorem prints_items (ih : ∀ x ∈ items, Prints x) (earlier : List Bytes) :
    ∃ json, replaced.replacedItems items earlier = .ok (json, earlier ++ (Value.arr items).segments) ∧
      (∀ x ∈ json, x.Strict) ∧
      ((Value.arr items).segments = (Value.arr items).leaves → ∀ later,
        resolveSegments.resolveItems (earlier ++ (Value.arr items).leaves ++ later) json = .ok items) := by
  induction items generalizing earlier with
  | nil => exact ⟨[], by simp [replaced.replacedItems, segments], by simp, fun _ _ => rfl⟩
  | cons x rest hTail =>
    obtain ⟨head, hHead, hHeadStrict, hHeadBack⟩ := ih x mem_cons_self earlier
    obtain ⟨tail, hRest, hRestStrict, hRestBack⟩ :=
      hTail (fun y hy => ih y (mem_cons_of_mem _ hy)) (earlier ++ x.segments)
    have hLeaves : (Value.arr (x :: rest)).leaves = x.leaves ++ (Value.arr rest).leaves := by
      rw [leaves_arr, leaves_arr, flatMap_cons]
    have hSegments : (Value.arr (x :: rest)).segments = x.segments ++ (Value.arr rest).segments := by
      rw [segments, hLeaves, filter_append]
      rfl
    refine ⟨head :: tail, ?_, ?_, fun hAll later => ?_⟩
    · rw [replaced.replacedItems, hHead, hSegments, ← append_assoc]
      show (replaced.replacedItems rest (earlier ++ x.segments)).map _ = _
      rw [hRest]
      rfl
    · intro y hy
      rcases mem_cons.mp hy with rfl | hy
      · exact hHeadStrict
      · exact hRestStrict y hy
    · rw [segments, hLeaves] at hAll
      obtain ⟨hFirst, hSecond⟩ := filter_append_eq hAll
      have hBack := hHeadBack hFirst ((Value.arr rest).leaves ++ later)
      have hTailBack := hRestBack hSecond later
      rw [show x.segments = x.leaves from hFirst] at hTailBack
      rw [resolveSegments.resolveItems, hLeaves, ← append_assoc earlier, append_assoc _ _ later, hBack]
      rw [append_assoc _ _ later] at hTailBack
      show (resolveSegments.resolveItems _ tail).map _ = _
      rw [hTailBack]
      rfl

variable {fields : List (JsString × Value)}

theorem prints_fields (ih : ∀ f ∈ fields, Prints f.2) (earlier : List Bytes) :
    ∃ json, replaced.replacedFields fields earlier = .ok (json, earlier ++ (Value.obj fields).segments) ∧
      json.map Prod.fst = fields.map Prod.fst ∧ (∀ f ∈ json, f.2.Strict) ∧
      ((Value.obj fields).segments = (Value.obj fields).leaves → ∀ later,
        resolveSegments.resolveFields (earlier ++ (Value.obj fields).leaves ++ later) json = .ok fields) := by
  induction fields generalizing earlier with
  | nil => exact ⟨[], by simp [replaced.replacedFields, segments], rfl, by simp, fun _ _ => rfl⟩
  | cons f rest hTail =>
    obtain ⟨head, hHead, hHeadStrict, hHeadBack⟩ := ih f mem_cons_self earlier
    obtain ⟨tail, hRest, hKeys, hRestStrict, hRestBack⟩ :=
      hTail (fun g hg => ih g (mem_cons_of_mem _ hg)) (earlier ++ f.2.segments)
    have hLeaves : (Value.obj (f :: rest)).leaves = f.2.leaves ++ (Value.obj rest).leaves := by
      rw [leaves_obj, leaves_obj, flatMap_cons]
    have hSegments : (Value.obj (f :: rest)).segments = f.2.segments ++ (Value.obj rest).segments := by
      rw [segments, hLeaves, filter_append]
      rfl
    refine ⟨(f.1, head) :: tail, ?_, ?_, ?_, fun hAll later => ?_⟩
    · rw [replaced.replacedFields, hHead, hSegments, ← append_assoc]
      show (replaced.replacedFields rest (earlier ++ f.2.segments)).map _ = _
      rw [hRest]
      rfl
    · rw [map_cons, map_cons, hKeys]
    · intro g hg
      rcases mem_cons.mp hg with rfl | hg
      · exact hHeadStrict
      · exact hRestStrict g hg
    · rw [segments, hLeaves] at hAll
      obtain ⟨hFirst, hSecond⟩ := filter_append_eq hAll
      have hBack := hHeadBack hFirst ((Value.obj rest).leaves ++ later)
      have hTailBack := hRestBack hSecond later
      rw [show f.2.segments = f.2.leaves from hFirst] at hTailBack
      rw [resolveSegments.resolveFields, hLeaves, ← append_assoc earlier, append_assoc _ _ later, hBack]
      rw [append_assoc _ _ later] at hTailBack
      show (resolveSegments.resolveFields _ tail).map _ = _
      rw [hTailBack]
      rfl

variable {value : Value}

theorem prints (hStrict : value.Strict) (hReserved : ¬ value.Reserved) : Prints value := by
  induction value using Value.induction with
  | null => exact fun earlier => ⟨.null, by simp [replaced, segments, leaves], trivial, fun _ _ => rfl⟩
  | bool b => exact fun earlier => ⟨.bool b, by simp [replaced, segments, leaves], trivial, fun _ _ => rfl⟩
  | num n => exact fun earlier => ⟨.num n, by simp [replaced, segments, leaves], trivial, fun _ _ => rfl⟩
  | str s => exact fun earlier => ⟨.str s, by simp [replaced, segments, leaves], trivial, fun _ _ => rfl⟩
  | bytes leaf => exact prints_bytes leaf
  | arr items ih =>
    intro earlier
    have hItems : ∀ x ∈ items, x.Strict := by
      cases hStrict with
      | arr hItems => exact hItems
    obtain ⟨json, hPrinted, hJson, hBack⟩ := prints_items
      (fun x hx => ih x hx (hItems x hx) fun hItem => hReserved (.item hx hItem)) earlier
    refine ⟨.arr json, ?_, (JsonValue.strict_arr json).mpr hJson, fun hAll later => ?_⟩
    · rw [replaced, hPrinted]
      rfl
    · rw [resolveSegments, hBack hAll later]
      rfl
  | obj fields ih =>
    intro earlier
    have hObject : OwnKeys (fields.map Prod.fst) ∧ ∀ f ∈ fields, f.2.Strict := by
      cases hStrict with
      | obj hKeys hFields => exact ⟨hKeys, hFields⟩
    obtain ⟨hKeys, hFields⟩ := hObject
    have hOwn : js "$bytes" ∉ fields.map Prod.fst := fun hKey => hReserved (.own hKey)
    obtain ⟨json, hPrinted, hSame, hJson, hBack⟩ := prints_fields
      (fun f hf => ih f hf (hFields f hf) fun hField => hReserved (.field hf hField)) earlier
    refine ⟨.obj json, ?_, (JsonValue.strict_obj json).mpr ⟨hSame ▸ hKeys, hJson⟩, fun hAll later => ?_⟩
    · rw [replaced, if_neg hOwn, hPrinted]
      rfl
    · rw [resolveSegments, if_neg (hSame ▸ hOwn), hBack hAll later]
      rfl

theorem fails_items {x : Value} (hMem : x ∈ items)
    (hItem : ∀ earlier, ∃ error, replaced x earlier = .error error) (earlier : List Bytes) :
    ∃ error, replaced.replacedItems items earlier = .error error := by
  induction items generalizing earlier with
  | nil => cases hMem
  | cons y rest ih =>
    rw [replaced.replacedItems]
    rcases mem_cons.mp hMem with rfl | hRest
    · obtain ⟨error, hError⟩ := hItem earlier
      exact ⟨error, by rw [hError]; rfl⟩
    · cases hHead : replaced y earlier with
      | error error => exact ⟨error, rfl⟩
      | ok head =>
        obtain ⟨error, hError⟩ := ih hRest head.2
        exact ⟨error, by rw [Except.bind, hError]; rfl⟩

theorem fails_fields {f : JsString × Value} (hMem : f ∈ fields)
    (hField : ∀ earlier, ∃ error, replaced f.2 earlier = .error error) (earlier : List Bytes) :
    ∃ error, replaced.replacedFields fields earlier = .error error := by
  induction fields generalizing earlier with
  | nil => cases hMem
  | cons g rest ih =>
    rw [replaced.replacedFields]
    rcases mem_cons.mp hMem with rfl | hRest
    · obtain ⟨error, hError⟩ := hField earlier
      exact ⟨error, by rw [hError]; rfl⟩
    · cases hHead : replaced g.2 earlier with
      | error error => exact ⟨error, rfl⟩
      | ok head =>
        obtain ⟨error, hError⟩ := ih hRest head.2
        exact ⟨error, by rw [Except.bind, hError]; rfl⟩

theorem fails_of_reserved (h : value.Reserved) (earlier : List Bytes) :
    ∃ error, replaced value earlier = .error error := by
  induction h generalizing earlier with
  | own hKey => exact ⟨.reserved, by rw [replaced, if_pos hKey]⟩
  | item hMem hItem ih =>
    obtain ⟨error, hError⟩ := fails_items hMem ih earlier
    exact ⟨error, by rw [replaced, hError]; rfl⟩
  | @field fields f hMem hField ih =>
    by_cases hOwn : js "$bytes" ∈ fields.map Prod.fst
    · exact ⟨.reserved, by rw [replaced, if_pos hOwn]⟩
    · obtain ⟨error, hError⟩ := fails_fields hMem ih earlier
      exact ⟨error, by rw [replaced, if_neg hOwn, hError]; rfl⟩

/-- A value comes back from its payload: the same bytes at the same places, and the
segments its leaves in order. -/
def RoundTrips (value : Value) : Prop :=
  ∃ part, payloadPart (some value) true = .ok part ∧ part.segments = some value.leaves ∧
    parsePayload (.string part.json) part.segments = .ok value

/-- What is said of a value sent. -/
def Sends (value : Value) : Prop :=
  (¬ value.Reserved → RoundTrips value) ∧ (value.Reserved → ∃ error, payloadPart (some value) true = .error error)

theorem sends_iff (hStrict : value.Strict) :
    Sends value ↔ value.Reserved ∨ ∀ leaf ∈ value.leaves, leaf.instanceOf ≠ .buffer := by
  have hClass : ∀ leaf : Bytes, leaf.instanceOf ≠ .buffer ↔ leaf.instanceOf = .uint8Array := by
    intro leaf
    cases leaf.instanceOf <;> decide
  have hAll : (∀ leaf ∈ value.leaves, leaf.instanceOf ≠ .buffer) ↔ value.segments = value.leaves := by
    rw [segments, filter_eq_self]
    simp only [hClass, decide_eq_true_eq]
  by_cases hReserved : value.Reserved
  · have hFails : ∃ error, payloadPart (some value) true = .error error := by
      obtain ⟨error, hError⟩ := fails_of_reserved hReserved []
      exact ⟨error, by rw [payloadPart, if_pos rfl, hError]; rfl⟩
    exact ⟨fun _ => .inl hReserved, fun _ => ⟨fun hNot => absurd hReserved hNot, fun _ => hFails⟩⟩
  · obtain ⟨json, hPrinted, hJson, hBack⟩ := prints hStrict hReserved []
    have hPart : payloadPart (some value) true = .ok { json := json.stringify, segments := some value.segments } := by
      rw [payloadPart, if_pos rfl, hPrinted]
      rfl
    rw [or_iff_right hReserved, hAll]
    constructor
    · rintro ⟨hRound, -⟩
      obtain ⟨part, hSent, hSegments, -⟩ := hRound hReserved
      rw [hPart] at hSent
      obtain rfl := Except.ok.inj hSent
      exact Option.some.inj hSegments
    · intro hSame
      refine ⟨fun _ => ⟨_, hPart, by rw [hSame], ?_⟩, fun h => absurd h hReserved⟩
      have hResolved := hBack hSame []
      rw [nil_append, append_nil] at hResolved
      rw [parsePayload, parsePart, JsonText.parse_stringify json hJson, hSame]
      exact hResolved

/-- An object with an own key `$bytes` that does not refer to a segment. -/
inductive Malformed (segments : List Bytes) : JsonValue → Prop where
  | own {node : Fields} (hKey : js "$bytes" ∈ node.map Prod.fst) (hReference : reference segments node = none) :
      Malformed segments (.obj node)
  | item {items : List JsonValue} {x : JsonValue} (hMem : x ∈ items) (hItem : Malformed segments x) :
      Malformed segments (.arr items)
  | field {node : Fields} {f : JsString × JsonValue} (hMem : f ∈ node) (hField : Malformed segments f.2) :
      Malformed segments (.obj node)

/-- A received value with nothing but its references replaced. -/
inductive Replaces (segments : List Bytes) : JsonValue → Value → Prop where
  | null : Replaces segments .null .null
  | bool (b : Bool) : Replaces segments (.bool b) (.bool b)
  | num (n : JsNumber) : Replaces segments (.num n) (.num n)
  | str (s : JsString) : Replaces segments (.str s) (.str s)
  | marker {index : JsNumber} {i : Nat} {segment : Bytes} (hIndex : index.toNat? = some i)
      (hSegment : segments[i]? = some segment) : Replaces segments (.obj [(js "$bytes", .num index)]) (.bytes segment)
  | arr {items : List JsonValue} {values : List Value} (hItems : Forall₂ (Replaces segments) items values) :
      Replaces segments (.arr items) (.arr values)
  | obj {node : Fields} {fields : List (JsString × Value)} (hKey : js "$bytes" ∉ node.map Prod.fst)
      (hSame : node.map Prod.fst = fields.map Prod.fst)
      (hFields : Forall₂ (fun f g => Replaces segments f.2 g.2) node fields) :
      Replaces segments (.obj node) (.obj fields)

/-- A received value is resolved, or has a malformed reference. -/
def Resolves (segments : List Bytes) (received : JsonValue) : Prop :=
  (∃ value, resolveSegments segments received = .ok value ∧ Replaces segments received value) ∨
    (∃ error, resolveSegments segments received = .error error) ∧ Malformed segments received

section Receive

variable {segments : List Bytes}

theorem resolves_items {items : List JsonValue} (ih : ∀ x ∈ items, Resolves segments x) :
    (∃ values, resolveSegments.resolveItems segments items = .ok values ∧
        Forall₂ (Replaces segments) items values) ∨
      (∃ error, resolveSegments.resolveItems segments items = .error error) ∧ ∃ x ∈ items, Malformed segments x := by
  induction items with
  | nil => exact .inl ⟨[], rfl, .nil⟩
  | cons x rest hTail =>
    rw [resolveSegments.resolveItems]
    rcases ih x mem_cons_self with ⟨value, hValue, hReplaced⟩ | ⟨⟨error, hError⟩, hMalformed⟩
    · rcases hTail fun y hy => ih y (mem_cons_of_mem _ hy) with
        ⟨values, hValues, hAll⟩ | ⟨⟨error, hError⟩, y, hy, hMalformed⟩
      · exact .inl ⟨value :: values, by rw [hValue, Except.bind, hValues]; rfl, .cons hReplaced hAll⟩
      · exact .inr ⟨⟨error, by rw [hValue, Except.bind, hError]; rfl⟩, y, mem_cons_of_mem _ hy, hMalformed⟩
    · exact .inr ⟨⟨error, by rw [hError]; rfl⟩, x, mem_cons_self, hMalformed⟩

theorem resolves_fields {node : Fields} (ih : ∀ f ∈ node, Resolves segments f.2) :
    (∃ fields, resolveSegments.resolveFields segments node = .ok fields ∧ node.map Prod.fst = fields.map Prod.fst ∧
        Forall₂ (fun f g => Replaces segments f.2 g.2) node fields) ∨
      (∃ error, resolveSegments.resolveFields segments node = .error error) ∧ ∃ f ∈ node, Malformed segments f.2 := by
  induction node with
  | nil => exact .inl ⟨[], rfl, rfl, .nil⟩
  | cons f rest hTail =>
    rw [resolveSegments.resolveFields]
    rcases ih f mem_cons_self with ⟨value, hValue, hReplaced⟩ | ⟨⟨error, hError⟩, hMalformed⟩
    · rcases hTail fun g hg => ih g (mem_cons_of_mem _ hg) with
        ⟨fields, hFields, hKeys, hAll⟩ | ⟨⟨error, hError⟩, g, hg, hMalformed⟩
      · refine .inl ⟨(f.1, value) :: fields, ?_, ?_, .cons hReplaced hAll⟩
        · rw [hValue, Except.bind, hFields]
          rfl
        · rw [map_cons, map_cons, hKeys]
      · exact .inr ⟨⟨error, by rw [hValue, Except.bind, hError]; rfl⟩, g, mem_cons_of_mem _ hg, hMalformed⟩
    · exact .inr ⟨⟨error, by rw [hError]; rfl⟩, f, mem_cons_self, hMalformed⟩

theorem replaces_of_reference {node : Fields} (hKey : js "$bytes" ∈ node.map Prod.fst) {segment : Bytes}
    (hReference : reference segments node = some segment) : Replaces segments (.obj node) (.bytes segment) := by
  unfold reference at hReference
  split at hReference
  next key index =>
    obtain ⟨i, hIndex, hSegment⟩ := Option.bind_eq_some_iff.mp hReference
    obtain rfl : js "$bytes" = key := mem_singleton.mp hKey
    exact .marker hIndex hSegment
  next => cases hReference

theorem resolves (received : JsonValue) : Resolves segments received := by
  induction received using JsonValue.induction with
  | null => exact .inl ⟨.null, rfl, .null⟩
  | bool b => exact .inl ⟨.bool b, rfl, .bool b⟩
  | num n => exact .inl ⟨.num n, rfl, .num n⟩
  | str s => exact .inl ⟨.str s, rfl, .str s⟩
  | arr items ih =>
    rcases resolves_items ih with ⟨values, hValues, hAll⟩ | ⟨⟨error, hError⟩, x, hx, hMalformed⟩
    · exact .inl ⟨.arr values, by rw [resolveSegments, hValues]; rfl, .arr hAll⟩
    · exact .inr ⟨⟨error, by rw [resolveSegments, hError]; rfl⟩, .item hx hMalformed⟩
  | obj node ih =>
    by_cases hKey : js "$bytes" ∈ node.map Prod.fst
    · cases hReference : reference segments node with
      | none => exact .inr ⟨⟨.reference, by rw [resolveSegments, if_pos hKey, hReference]⟩, .own hKey hReference⟩
      | some segment =>
        refine .inl ⟨.bytes segment, ?_, replaces_of_reference hKey hReference⟩
        rw [resolveSegments, if_pos hKey, hReference]
    · rcases resolves_fields ih with ⟨fields, hFields, hKeys, hAll⟩ | ⟨⟨error, hError⟩, f, hf, hMalformed⟩
      · exact .inl ⟨.obj fields, by rw [resolveSegments, if_neg hKey, hFields]; rfl, .obj hKey hKeys hAll⟩
      · exact .inr ⟨⟨error, by rw [resolveSegments, if_neg hKey, hError]; rfl⟩, .field hf hMalformed⟩

end Receive

/-- What is said of a part received with segments. -/
def Receives (json : Text) (segments : List Bytes) : Prop :=
  (∃ received value, parsePart json = some received ∧ parsePayload json (some segments) = .ok value ∧
      Replaces segments received value) ∨
    (∃ error, parsePayload json (some segments) = .error error) ∧
      ∀ received, parsePart json = some received → Malformed segments received

theorem receives (json : Text) (segments : List Bytes) : Receives json segments := by
  cases hJson : parsePart json with
  | none =>
    refine .inr ⟨⟨.json, by rw [parsePayload, hJson]⟩, fun received hReceived => ?_⟩
    rw [hJson] at hReceived
    cases hReceived
  | some received =>
    have hPayload : parsePayload json (some segments) = resolveSegments segments received := by
      rw [parsePayload, hJson]
    rcases @resolves segments received with ⟨value, hValue, hReplaced⟩ | ⟨⟨error, hError⟩, hMalformed⟩
    · exact .inl ⟨received, value, hJson, hPayload.trans hValue, hReplaced⟩
    · refine .inr ⟨⟨error, hPayload.trans hError⟩, fun other hOther => ?_⟩
      rw [hJson] at hOther
      rwa [← Option.some.inj hOther]

/-- What is sent is read back, or refused for a reserved key, exactly when it has a reserved
key or no leaf with a `toJSON`; whatever is received is resolved or refused. -/
theorem payload_roundTrip (value : StrictValue) (json : Text) (segments : List Bytes) :
    (Sends value.1 ↔ value.1.Reserved ∨ ∀ leaf ∈ value.1.leaves, leaf.instanceOf ≠ .buffer) ∧ Receives json segments :=
  ⟨sends_iff value.2, receives json segments⟩

/-- A Node buffer goes out as the JSON of its `toJSON`. -/
theorem buffer_lost : ¬ ∀ value : StrictValue, Sends value.1 := by
  intro hAll
  have hSends := hAll ⟨.obj [(js "data", .bytes ⟨.buffer, [1, 2]⟩)],
    .obj ⟨nodup_singleton _, pairwise_singleton _ _⟩ fun f hf => by rw [mem_singleton.mp hf]; exact .bytes _⟩
  have hReserved : ¬ (Value.obj [(js "data", .bytes ⟨.buffer, [1, 2]⟩)]).Reserved := by
    intro hReserved
    cases hReserved with
    | own hKey => exact absurd hKey (by decide)
    | field hMem hField =>
      rw [mem_singleton.mp hMem] at hField
      cases hField
  obtain ⟨part, hPart, hSegments, -⟩ := hSends.1 hReserved
  obtain rfl := Except.ok.inj hPart
  exact absurd hSegments (by decide)

end OctoberHarness.Payload

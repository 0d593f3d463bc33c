import OctoberHarness.Delta.Codec
import Mathlib.Data.List.SplitLengths

/-! An encoder and its decoder stay in step over every history of batches and
from every recovery point. -/
namespace OctoberHarness.Delta

open List OrderedMap

/-- A decoder knows every path its encoder may refer to: each assigned id, and
the path a shortened tuple would reuse. -/
structure Synced (encoder : Encoder) (previous : Option JsString) (paths : Decoder)
    (last : Option Path) : Prop where
  ids : ∀ key id, encoder.ids.lookup key = some id →
    id < encoder.nextId ∧ ∃ path, pathKey path = key ∧ paths.lookup id = some path
  previous : ∀ key, previous = some key → ∃ path, last = some path ∧ pathKey path = key

theorem Synced.fresh (paths : Decoder) (last : Option Path) : Synced {} none paths last where
  ids := by simp
  previous := by simp

variable {encoder : Encoder} {paths : Decoder} {last : Option Path}

variable {previous : Option JsString} {op : Op} {paths paths' : Decoder} {last' last : Option Path}

theorem Synced.boundary (h : Synced encoder previous paths last) (last' : Option Path) :
    Synced encoder none paths last' where
  ids := h.ids
  previous := by simp

theorem Op.WellFormed.safe (h : op.WellFormed) : ∀ seg ∈ op.path, seg.safe = true := by
  cases op with
  | r value => simp [Op.path]
  | s path value => exact ((assertPathArg_ok_iff path true).mp h).2
  | d path => exact ((assertPathArg_ok_iff path true).mp h).2
  | a path text => exact ((assertPathArg_ok_iff path true).mp h).2
  | t path count => exact ((assertPathArg_ok_iff path true).mp h).2
  | p path index remove items => exact ((assertPathArg_ok_iff path false).mp h).2
  | m path permutation =>
    rw [Op.WellFormed, assertValidOp] at h
    cases hPath : assertPathArg path false with
    | error e => simp [hPath, bind, Except.bind] at h
    | ok u => exact ((assertPathArg_ok_iff path false).mp hPath).2

theorem decodeOp_withRef (hOp : op.WellFormed) (hPathed : ∀ value, op ≠ .r value) {ref : Option PathRef}
    (hRef : decodePath paths last ref = .ok op.path) :
    decodeOp paths last (op.withRef ref) = .ok ([op], paths, some op.path) := by
  have hNonRoot : ∀ path, assertPathArg path true = .ok () → ∀ result, nonRoot path result = .ok result := by
    intro path hPath result
    rw [nonRoot, if_neg (((assertPathArg_ok_iff path true).mp hPath).1 rfl)]
  cases op with
  | r value => exact absurd rfl (hPathed value)
  | s path value => simp_all [Op.withRef, Op.path, decodeOp, bind, Except.bind, hNonRoot path hOp]
  | d path => simp_all [Op.withRef, Op.path, decodeOp, bind, Except.bind, hNonRoot path hOp]
  | a path text => simp_all [Op.withRef, Op.path, decodeOp, bind, Except.bind, hNonRoot path hOp]
  | t path count => simp_all [Op.withRef, Op.path, decodeOp, bind, Except.bind, hNonRoot path hOp]
  | p path index remove items => simp_all [Op.withRef, Op.path, decodeOp, bind, Except.bind]
  | m path permutation => simp_all [Op.withRef, Op.path, decodeOp, bind, Except.bind]

theorem decodeOps_cons {wire : WireOp} {out : List Op} (hValid : assertValidWireOp wire.tuple = .ok wire)
    (hStep : decodeOp paths last wire = .ok (out, paths', last')) (rest : List JsonValue) :
    decodeOps paths last (wire.tuple :: rest) =
      (decodeOps paths' last' rest).map fun (ops, paths) => (out ++ ops, paths) := by
  rw [decodeOps, hValid]
  simp only [bind, Except.bind, hStep]
  cases decodeOps paths' last' rest <;> rfl

/-- The operations of a list of tuples, whatever follows them in the batch. -/
def Decodes (paths : Decoder) (last : Option Path) (wire : List WireOp) (ops : List Op)
    (paths' : Decoder) (last' : Option Path) : Prop :=
  ∀ rest, decodeOps paths last (wire.map WireOp.tuple ++ rest) =
    (decodeOps paths' last' rest).map fun (tail, paths) => (ops ++ tail, paths)

theorem Decodes.nil (paths : Decoder) (last : Option Path) : Decodes paths last [] [] paths last := by
  intro rest
  simp only [map_nil, nil_append]
  cases decodeOps paths last rest <;> rfl

theorem Decodes.append {paths'' : Decoder} {last'' : Option Path} {wire wire' : List WireOp} {ops ops' : List Op}
    (h : Decodes paths last wire ops paths' last') (h' : Decodes paths' last' wire' ops' paths'' last'') :
    Decodes paths last (wire ++ wire') (ops ++ ops') paths'' last'' := by
  intro rest
  rw [map_append, append_assoc, h, h' rest]
  cases decodeOps paths'' last'' rest with
  | error e => rfl
  | ok result => simp [Except.map]

theorem Decodes.single {wire : WireOp} {out : List Op} (hValid : assertValidWireOp wire.tuple = .ok wire)
    (hStep : decodeOp paths last wire = .ok (out, paths', last')) :
    Decodes paths last [wire] out paths' last' :=
  fun rest => decodeOps_cons hValid hStep rest

theorem Decodes.withRef (hOp : op.WellFormed) (hPathed : ∀ value, op ≠ .r value) {ref : Option PathRef}
    (hSafe : PathRef.Safe ref) (hRef : decodePath paths last ref = .ok op.path) :
    Decodes paths last [op.withRef ref] [op] paths (some op.path) :=
  Decodes.single (assertValidWireOp_withRef op hOp ref hSafe) (decodeOp_withRef hOp hPathed hRef)

/-- `encodeOp` of an operation with a path. -/
theorem encodeOp_pathed {encoder : Encoder} (hPathed : ∀ value, op ≠ .r value) :
    encodeOp encoder previous op =
      if previous = some (pathKey op.path) then ([op.withRef none], encoder, previous)
      else
        match encoder.ids.lookup (pathKey op.path) with
        | some id => ([op.withRef (some (.id id))], encoder, some (pathKey op.path))
        | none =>
          if pathKey op.path ∈ encoder.seen then
            ([.define encoder.nextId op.path, op.withRef (some (.id encoder.nextId))],
              { encoder with
                ids := set encoder.ids (pathKey op.path) encoder.nextId
                nextId := encoder.nextId + 1 }, some (pathKey op.path))
          else
            ([op.withRef (some (.inline op.path))],
              { encoder with seen := pathKey op.path :: encoder.seen }, some (pathKey op.path)) := by
  cases op with
  | r value => exact absurd rfl (hPathed value)
  | _ => rfl

theorem Synced.step {encoder : Encoder} (h : Synced encoder previous paths last) (hOp : op.WellFormed) :
    ∃ paths' last', Decodes paths last (encodeOp encoder previous op).1 [op] paths' last' ∧
      Synced (encodeOp encoder previous op).2.1 (encodeOp encoder previous op).2.2 paths' last' := by
  by_cases hReplace : ∃ value, op = .r value
  · obtain ⟨value, rfl⟩ := hReplace
    refine ⟨[], none, ?_, Synced.fresh [] none⟩
    exact Decodes.single (assertValidWireOp_withRef (.r value) hOp none trivial) rfl
  have hPathed : ∀ value, op ≠ .r value := fun value hEq => hReplace ⟨value, hEq⟩
  have hLast : ∀ key, some (pathKey op.path) = some key →
      ∃ path, some op.path = some path ∧ pathKey path = key :=
    fun key hKey => ⟨op.path, rfl, Option.some.inj hKey⟩
  rw [encodeOp_pathed hPathed]
  by_cases hPrevious : previous = some (pathKey op.path)
  -- the path of the previous operation: the tuple is shortened
  · obtain ⟨path, hPath, hKey⟩ := h.previous _ hPrevious
    obtain rfl := pathKey_injective hKey
    rw [if_pos hPrevious]
    exact ⟨paths, some op.path, Decodes.withRef hOp hPathed trivial (by rw [hPath]; rfl),
      ⟨h.ids, by rw [hPrevious]; exact hLast⟩⟩
  rw [if_neg hPrevious]
  cases hId : encoder.ids.lookup (pathKey op.path) with
  -- a path with an id
  | some id =>
    obtain ⟨-, path, hKey, hKnown⟩ := h.ids _ _ hId
    obtain rfl := pathKey_injective hKey
    exact ⟨paths, some op.path,
      Decodes.withRef hOp hPathed trivial (by rw [decodePath, hKnown]), ⟨h.ids, hLast⟩⟩
  | none =>
    simp only
    by_cases hSeen : pathKey op.path ∈ encoder.seen
    -- the second use: the definition comes first
    · rw [if_pos hSeen]
      refine ⟨set paths encoder.nextId op.path, some op.path, ?_, ?_, hLast⟩
      · have hDefine : Decodes paths last [.define encoder.nextId op.path] []
            (set paths encoder.nextId op.path) last :=
          Decodes.single (assertValidWireOp_define _ _ hOp.safe) rfl
        have hUse : Decodes (set paths encoder.nextId op.path) last
            [op.withRef (some (.id encoder.nextId))] [op]
            (set paths encoder.nextId op.path) (some op.path) :=
          Decodes.withRef hOp hPathed trivial (by rw [decodePath, lookup_set_self])
        exact hDefine.append hUse
      · intro key id hLookup
        rw [lookup_set] at hLookup
        split_ifs at hLookup with hKey
        · obtain rfl := Option.some.inj hLookup
          exact ⟨Nat.lt_succ_self _, op.path, hKey.symm, lookup_set_self _ _ _⟩
        · obtain ⟨hLt, path, hPath, hKnown⟩ := h.ids key id hLookup
          refine ⟨Nat.lt_succ_of_lt hLt, path, hPath, ?_⟩
          rw [lookup_set_of_ne _ _ (Nat.ne_of_lt hLt), hKnown]
    -- the first use: inline
    · rw [if_neg hSeen]
      exact ⟨paths, some op.path, Decodes.withRef hOp hPathed hOp.safe rfl, ⟨h.ids, hLast⟩⟩

theorem Synced.batch (h : Synced encoder previous paths last) {ops : List Op} (hOps : ∀ op ∈ ops, op.WellFormed) :
    ∃ paths' last', Decodes paths last (encodeOps encoder previous ops).1 ops paths' last' ∧
      Synced (encodeOps encoder previous ops).2 none paths' last' := by
  induction ops generalizing encoder previous paths last with
  | nil => exact ⟨paths, last, Decodes.nil paths last, h.boundary last⟩
  | cons op rest ih =>
    obtain ⟨paths₁, last₁, hHead, hStep⟩ := h.step (hOps op (by simp))
    obtain ⟨paths₂, last₂, hTail, hSynced⟩ := ih hStep fun o ho => hOps o (by simp [ho])
    exact ⟨paths₂, last₂, hHead.append hTail, hSynced⟩

/-- The encoder after a list of batches. -/
def encoderAfter (encoder : Encoder) (batches : List (List Op)) : Encoder :=
  batches.foldl (fun encoder batch => (encode encoder batch).2) encoder

theorem encodeAll_length (encoder : Encoder) (batches : List (List Op)) :
    (encodeAll encoder batches).length = batches.length := by
  induction batches generalizing encoder with
  | nil => rfl
  | cons batch rest ih => rw [encodeAll, length_cons, ih, length_cons]

theorem encodeAll_append (encoder : Encoder) (first second : List (List Op)) :
    encodeAll encoder (first ++ second) =
      encodeAll encoder first ++ encodeAll (encoderAfter encoder first) second := by
  induction first generalizing encoder with
  | nil => rfl
  | cons batch rest ih => rw [cons_append, encodeAll, encodeAll, ih, cons_append]; rfl

theorem Synced.group (h : Synced encoder none paths last) {group : List (List Op)}
    (hOps : ∀ batch ∈ group, ∀ op ∈ batch, op.WellFormed) :
    ∃ paths', decodeOps paths last (encodeAll encoder group).flatten = .ok (group.flatten, paths') ∧
      Synced (encoderAfter encoder group) none paths' none := by
  induction group generalizing encoder paths last with
  | nil => exact ⟨paths, rfl, h.boundary none⟩
  | cons batch rest ih =>
    obtain ⟨paths₁, last₁, hHead, hSynced⟩ := h.batch (hOps batch (by simp))
    obtain ⟨paths₂, hTail, hAfter⟩ := ih hSynced fun b hb => hOps b (by simp [hb])
    refine ⟨paths₂, ?_, hAfter⟩
    have hWire : (encodeAll encoder (batch :: rest)).flatten =
        (encodeOps encoder none batch).1.map WireOp.tuple ++
          (encodeAll (encodeOps encoder none batch).2 rest).flatten := rfl
    rw [hWire, hHead, hTail]
    rfl

theorem Synced.groups (h : Synced encoder none paths none) (groups : List (List (List Op)))
    (hOps : ∀ group ∈ groups, ∀ batch ∈ group, ∀ op ∈ batch, op.WellFormed) :
    decodeAll paths (((groups.map length).splitLengths
        (encodeAll encoder groups.flatten)).map flatten) = .ok (groups.map flatten) := by
  induction groups generalizing encoder paths with
  | nil => rfl
  | cons group rest ih =>
    obtain ⟨paths', hGroup, hAfter⟩ := h.group (hOps group (by simp))
    have hRest := ih hAfter fun g hg => hOps g (by simp [hg])
    have hLength := encodeAll_length encoder group
    rw [flatten_cons, encodeAll_append, map_cons, splitLengths_cons,
      take_left' hLength, drop_left' hLength, map_cons, map_cons]
    rw [decodeAll, decode, hGroup]
    simp only [bind, Except.bind, hRest]

theorem Synced.stream (h : Synced encoder none paths none)
    (batches : List (List Op)) (hOps : ∀ batch ∈ batches, ∀ op ∈ batch, op.WellFormed) :
    decodeAll paths (encodeAll encoder batches) = .ok batches := by
  induction batches generalizing encoder paths with
  | nil => rfl
  | cons batch rest ih =>
    obtain ⟨paths', last', hBatch, hAfter⟩ := h.batch (hOps batch (by simp))
    have hRest := ih (hAfter.boundary none) fun b hb => hOps b (by simp [hb])
    have hDecode : decode paths (encode encoder batch).1 = .ok (batch, paths') := by
      have hAll := hBatch []
      rw [append_nil] at hAll
      exact hAll.trans (by simp [decodeOps, Except.map])
    rw [encodeAll, decodeAll, hDecode]
    simp only [bind, Except.bind, encode, hRest]

theorem encodeOps_isBase (encoder : Encoder) (batch : List Op) (hBase : isBase batch = true) :
    encodeOps encoder none batch = encodeOps {} none batch := by
  cases batch with
  | nil => simp [isBase] at hBase
  | cons op rest =>
    cases op with
    | r value => rfl
    | _ => simp [isBase, isReplace] at hBase

/-- The codec is lossless over a whole stream. Every batch comes out as it went
in; batches that were coalesced come out concatenated, for every regrouping;
and a fresh decoder may start at any batch that begins with a replacement. -/
theorem decode_encode_stream (batches : List (List Op))
    (hOps : ∀ batch ∈ batches, ∀ op ∈ batch, op.WellFormed) :
    decodeAll [] (encodeAll {} batches) = .ok batches ∧
    (∀ groups : List (List (List Op)), groups.flatten = batches →
      decodeAll [] (((groups.map length).splitLengths (encodeAll {} batches)).map flatten) =
        .ok (groups.map flatten)) ∧
    (∀ before batch after, batches = before ++ batch :: after → isBase batch = true →
      decodeAll [] ((encodeAll {} batches).drop before.length) = .ok (batch :: after)) := by
  refine ⟨(Synced.fresh [] none).stream batches hOps, ?_, ?_⟩
  · rintro groups rfl
    refine (Synced.fresh [] none).groups groups fun group hGroup batch hBatch => hOps batch ?_
    exact List.mem_flatten.mpr ⟨group, hGroup, hBatch⟩
  · rintro before batch after rfl hBase
    have hTail : ∀ b ∈ batch :: after, ∀ op ∈ b, op.WellFormed := fun b hb => hOps b (by simp [hb])
    have hSame : encodeAll (encoderAfter {} before) (batch :: after) = encodeAll {} (batch :: after) := by
      simp only [encodeAll, encode, encodeOps_isBase _ batch hBase]
    rw [encodeAll_append, drop_left' (encodeAll_length {} before), hSame]
    exact (Synced.fresh [] none).stream (batch :: after) hTail

/-- A stream that interns a path, omits it, and starts again at a replacement. -/
theorem decode_encode_stream_sample :
    let path : Path := [.key (js "log"), .index 0]
    let batches : List (List Op) :=
      [[.a path (js "x"), .a path (js "y")], [.p [] 0 1 [.null], .a path (js "z")],
        [.r (.arr []), .t path 2]]
    decodeAll [] (encodeAll {} batches) = .ok batches := by
  intro path batches
  exact (decode_encode_stream batches (by decide)).1

end OctoberHarness.Delta

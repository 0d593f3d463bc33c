import OctoberHarness.Library.Bounds
import OctoberHarness.Storage.MemoryRead

/-! The transcript of a client: the entries it has of a conversation, and the gaps
between them. -/
namespace OctoberHarness.Transcript

open OrderedMap

open Storage (EntryRecord Page ScanOrder)

/-- The id of an entry. -/
def num (entry : EntryRecord) : Bound :=
  Bound.of entry.id

structure Gap where
  after : Bound
  upTo : Bound
deriving DecidableEq

/-- `TranscriptItem`. -/
inductive Item where
  | earlier
  | gap (gap : Gap)
  | entry (entry : EntryRecord)
deriving DecidableEq

/-- `ConversationView`, its window. -/
structure ConversationView where
  entries : List EntryRecord
  before : Option Nat := none
deriving DecidableEq

/-- Where a window begins, exclusive. -/
def ConversationView.start (view : ConversationView) : Bound :=
  (view.before.map Bound.of).getD ⊥

/-- Where a window ends: at its last entry, or its start. -/
def ConversationView.reach (view : ConversationView) : Bound :=
  (view.entries.getLast?.map num).getD view.start

structure Query where
  minEntryId : Option Bound := none
  maxEntryId : Bound
  order : ScanOrder

/-- A load: asked for, answered with a page, or taken into the transcript. -/
inductive Phase where
  | asked
  | read (page : Page EntryRecord)
  | landed
deriving DecidableEq

structure ConversationTranscript where
  entries : List EntryRecord := []
  ids : List Nat := []
  gaps : List Gap := []
  started : Bool := false
  low : Bound := ⊥
  tail : Bound := ⊥
  items : List Item := []
  last : Option ConversationView := none
  earlier : Option (Bound × Phase) := none
  filling : List (Gap × Phase) := []

/-- The loop of `#build`: every gap before the entry after it. -/
def placeGaps : List Gap → List EntryRecord → List Item
  | gaps, [] => gaps.map .gap
  | gaps, entry :: rest =>
    (gaps.takeWhile fun gap => decide (gap.after < num entry)).map .gap ++
      .entry entry :: placeGaps (gaps.dropWhile fun gap => decide (gap.after < num entry)) rest

def build (low : Bound) (gaps : List Gap) (entries : List EntryRecord) : List Item :=
  (if low = ⊥ then [] else [.earlier]) ++ placeGaps gaps entries

def mergeById (left right : List EntryRecord) : List EntryRecord :=
  left.merge right fun first second => decide (first.id < second.id)

namespace ConversationTranscript

/-- One gap without (`lo`, `hi`], where it changes. -/
def subtractGap (s : ConversationTranscript) (lo hi : Bound) (gap : Gap) : Option (List Gap) :=
  if hi ≤ gap.after ∨ gap.upTo ≤ Bound.succ lo then none
  else
    let firstKnown := ((s.entries.find? fun entry => decide (lo < num entry)).map num).getD (Bound.succ lo)
    some ((if gap.after < lo then [{ after := gap.after, upTo := min gap.upTo firstKnown }] else []) ++
      if Bound.succ hi < gap.upTo then [{ after := hi, upTo := gap.upTo }] else [])

/-- `#subtract`: the gaps without (`lo`, `hi`], where one changes. -/
def subtract (s : ConversationTranscript) (lo hi : Bound) : Option (List Gap) :=
  if hi ≤ lo ∨ ∀ gap ∈ s.gaps, s.subtractGap lo hi gap = none then none
  else some (s.gaps.flatMap fun gap => (s.subtractGap lo hi gap).getD [gap])

/-- The branches of `#cover`, with the entries held before: the ranges and gaps, and
whether the items are built again. -/
def relate (s : ConversationTranscript) (held : List EntryRecord) (lo hi : Bound) (added : List EntryRecord) : ConversationTranscript × Bool :=
  if s.started = false ∨ (held = [] ∧ s.gaps = [] ∧ s.tail ≤ lo) then
    -- the first range, or one after an empty transcript
    ({ s with started := true, low := lo, tail := max s.tail hi }, !s.started || decide (lo ≠ s.low))
  else if s.tail < lo then
    let upTo := (added.head?.map num).getD (Bound.succ lo)
    ({ s with gaps := s.gaps ++ [{ after := s.tail, upTo }], tail := hi }, true)
  else if hi ≠ ⊥ ∧ hi < s.low then
    let upTo := ((held.find? fun entry => decide (hi < num entry)).map num).getD (Bound.succ s.low)
    ({ s with gaps := { after := hi, upTo } :: s.gaps, low := lo }, true)
  else
    let gaps := s.subtract lo hi
    ({ s with
        gaps := gaps.getD s.gaps
        low := if lo < s.low then lo else s.low
        tail := if s.tail < hi then hi else s.tail },
      gaps.isSome || decide (lo < s.low))

/-- Whether new entries are past every held one. -/
def appends (held fresh : List EntryRecord) : Bool :=
  match fresh.head?, held.getLast? with
  | some first, some last => decide (last.id < first.id)
  | _, _ => true

def cover (s : ConversationTranscript) (lo hi : Bound) (added : List EntryRecord) : ConversationTranscript :=
  let fresh := added.filter fun entry => decide (entry.id ∉ s.ids)
  let held := s.entries
  let appended := appends held fresh
  let entries := if fresh = [] then held else if appended then held ++ fresh else mergeById held fresh
  let (next, rebuild) := relate { s with ids := s.ids ++ fresh.map EntryRecord.id, entries } held lo hi added
  { next with
    items :=
      if rebuild ∨ appended = false then build next.low next.gaps next.entries
      else if fresh = [] then next.items
      else next.items ++ fresh.map .entry }

def merge (s : ConversationTranscript) (view : ConversationView) : ConversationTranscript :=
  { s with last := some view }.cover view.start view.reach view.entries

/-- `loadEarlier`, up to its load. -/
def loadEarlier (s : ConversationTranscript) : ConversationTranscript :=
  if s.last.isNone ∨ s.low = ⊥ ∨ s.earlier.isSome then s else { s with earlier := some (s.low, .asked) }

/-- The gap that a descriptor stands for. -/
def currentGap (s : ConversationTranscript) (gap : Gap) : Option Gap :=
  (s.gaps.find? fun each => decide (each.after = gap.after ∧ each.upTo = gap.upTo)).or
    (s.gaps.find? fun each => decide (each.after < gap.upTo ∧ gap.after < each.upTo))

/-- `fillGap`, up to its load. -/
def fillGap (s : ConversationTranscript) (gap : Gap) : ConversationTranscript :=
  match s.currentGap gap with
  | none => s
  | some current =>
    if (s.filling.lookup current).isSome then s
    else { s with filling := set s.filling current .asked }

/-- What the page before `low` covers. -/
def earlierRange (low : Bound) (page : Page EntryRecord) : Bound × Bound × List EntryRecord :=
  let items := page.items.reverse
  match page.next, items.head? with
  | some _, some oldest => (Bound.pred (num oldest), low, items)
  | _, _ => (⊥, low, items)

/-- What the next page of a gap covers. -/
def gapRange (gap : Gap) (page : Page EntryRecord) : Bound × Bound × List EntryRecord :=
  match page.next, page.items.getLast? with
  | some _, some newest => (gap.after, num newest, page.items)
  | _, _ => (gap.after, Bound.pred gap.upTo, page.items)

end ConversationTranscript

inductive Load where
  | earlier
  | gap (gap : Gap)
deriving DecidableEq

namespace ConversationTranscript

/-- How far a load is. -/
def phase (s : ConversationTranscript) : Load → Option Phase
  | .earlier => s.earlier.map Prod.snd
  | .gap gap => s.filling.lookup gap

def setPhase (s : ConversationTranscript) (phase : Phase) : Load → ConversationTranscript
  | .earlier => { s with earlier := s.earlier.map fun load => (load.1, phase) }
  | .gap gap => { s with filling := set s.filling gap phase }

/-- The load is no longer shared. -/
def clear (s : ConversationTranscript) : Load → ConversationTranscript
  | .earlier => { s with earlier := none }
  | .gap gap => { s with filling := erase s.filling gap }

/-- What a load covers with its page. -/
def loadRange (s : ConversationTranscript) (load : Load) (page : Page EntryRecord) : Bound × Bound × List EntryRecord :=
  match load with
  | .earlier => earlierRange ((s.earlier.map Prod.fst).getD ⊥) page
  | .gap gap => gapRange gap page

def loadQuery (s : ConversationTranscript) : Load → Query
  | .earlier => { maxEntryId := (s.earlier.map Prod.fst).getD ⊥, order := .descending }
  | .gap gap => { minEntryId := some (Bound.succ gap.after), maxEntryId := Bound.pred gap.upTo, order := .ascending }

end ConversationTranscript

/-- A conversation and the transcript of a client. -/
structure World where
  log : List EntryRecord := []
  transcript : ConversationTranscript := {}

inductive Event where
  /-- More entries are committed. -/
  | commit (entries : List EntryRecord)
  | merge (view : ConversationView)
  | loadEarlier
  | fillGap (gap : Gap)
  /-- The loader answers. -/
  | read (load : Load) (page : Page EntryRecord)
  /-- The page of a load is taken into the transcript. -/
  | land (load : Load)
  /-- A load has settled, or failed. -/
  | settle (load : Load)

def Event.range (s : ConversationTranscript) : Event → Option (Bound × Bound × List EntryRecord)
  | .merge view => some (view.start, view.reach, view.entries)
  | .land load =>
    match s.phase load with
    | some (.read page) => some (s.loadRange load page)
    | _ => none
  | _ => none

namespace World

def step (w : World) : Event → World
  | .commit entries => { w with log := w.log ++ entries }
  | .merge view => { w with transcript := w.transcript.merge view }
  | .loadEarlier => { w with transcript := w.transcript.loadEarlier }
  | .fillGap gap => { w with transcript := w.transcript.fillGap gap }
  | .read load page =>
    if w.transcript.phase load = some .asked then { w with transcript := w.transcript.setPhase (.read page) load } else w
  | .land load =>
    match w.transcript.phase load with
    | some (.read page) =>
      let (lo, hi, added) := w.transcript.loadRange load page
      { w with transcript := (w.transcript.cover lo hi added).setPhase .landed load }
    | _ => w
  | .settle load =>
    match w.transcript.phase load with
    | some (.read _) => w
    | _ => { w with transcript := w.transcript.clear load }

def run (w : World) (events : List Event) : World :=
  events.foldl step w

end World

/-! Truthful windows and loads. -/

/-- A window of a conversation: a run of its entries, with the entry before it. -/
def IsWindow (log : List EntryRecord) (view : ConversationView) : Prop :=
  ∃ first last, log = first ++ view.entries ++ last ∧ view.before = first.getLast?.map EntryRecord.id

/-- The entries a query asks for, in its order. -/
def matching (log : List EntryRecord) (query : Query) : List EntryRecord :=
  let found := log.filter fun entry => query.minEntryId.all (fun min => decide (min ≤ num entry)) &&
    decide (num entry ≤ query.maxEntryId)
  match query.order with
  | .ascending => found
  | .descending => found.reverse

/-- A page with the first entries of a query, all of them when it is the last or empty. -/
def Answers (log : List EntryRecord) (query : Query) (page : Page EntryRecord) : Prop :=
  page.items <+: matching log query ∧ (page.next = none ∨ page.items = [] → page.items = matching log query)

/-- New entries have new ids; windows and pages are of the conversation. -/
def World.Truthful (w : World) : Event → Prop
  | .commit entries => (w.log ++ entries).Pairwise fun first second => first.id < second.id
  | .merge view => IsWindow w.log view
  | .read load page => Answers w.log (w.transcript.loadQuery load) page
  | _ => True

end OctoberHarness.Transcript

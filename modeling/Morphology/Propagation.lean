import Morphology.Kind
import Morphology.Neighborhood
import Morphology.Queue

/-!
Propagation of marker values under a mask: a sweep forward, a sweep backward that queues what it
leaves unfinished, and a drain of the queue. The passes see a grid only through the order in which
elements are visited and the neighbors of each.
-/

namespace Morphology

/-- An element met by a sweep, with the neighbors that the sweep has passed. -/
structure Visit (n : Nat) where
  index : Fin n
  passed : List (Fin n)

/-- What the passes have to know of a grid with `n` elements. -/
structure Schedule (n : Nat) where
  forward : List (Visit n)
  backward : List (Visit n)
  neighbors : Fin n → List (Fin n)

def Shape.schedule (s : Shape) (connectivity : Connectivity) : Schedule s.len :=
  let neighborhood := s.neighborhood connectivity
  let visit (offsets : List Offset) (site : Site s) : Visit s.len :=
    ⟨site.index, s.neighborsOf offsets site⟩
  { forward := s.sites.map (visit neighborhood.causal)
    backward := s.sitesBackward.map (visit neighborhood.anticausal)
    neighbors := fun index => s.neighborsOf neighborhood.full (s.site index) }

variable {α : Type} [Pixel α] {n : Nat}

/-! ## Sweeps -/

structure Swept (α : Type) (n : Nat) where
  marker : Vector α n
  updates : Nat

/-- A value that compares equal to the old one is not written. -/
def Swept.write (s : Swept α n) (index : Fin n) (value : α) : Swept α n :=
  if Pixel.eq value (s.marker.get index) then s
  else ⟨s.marker.set index value index.isLt, s.updates + 1⟩

/-- The furthest of an element and the neighbors it has passed, cut at the mask. -/
def settled (kind : Kind) (mask marker : Vector α n) (visit : Visit n) : α :=
  let furthest := visit.passed.foldl (fun value q => kind.combine value (marker.get q))
    (marker.get visit.index)
  kind.clamp furthest (mask.get visit.index)

def sweepStep (kind : Kind) (mask : Vector α n) (s : Swept α n) (visit : Visit n) : Swept α n :=
  s.write visit.index (settled kind mask s.marker visit)

def forwardSweep (kind : Kind) (mask : Vector α n) (visits : List (Visit n))
    (marker : Vector α n) : Swept α n :=
  visits.foldl (sweepStep kind mask) ⟨marker, 0⟩

structure Seeded (α : Type) (n : Nat) extends Swept α n where
  queue : Queue n

/-- Whether an element with this value could still improve a neighbor. -/
def improves (kind : Kind) (mask marker : Vector α n) (value : α) (q : Fin n) : Bool :=
  kind.precedes (marker.get q) value && kind.precedes (marker.get q) (mask.get q)

/-- An element that could improve a neighbor it has passed is queued. -/
def seedStep (kind : Kind) (mask : Vector α n) (s : Seeded α n) (visit : Visit n) :
    Seeded α n :=
  let value := settled kind mask s.marker visit
  let swept := s.toSwept.write visit.index value
  if visit.passed.any (improves kind mask swept.marker value) then
    ⟨swept, (s.queue.push visit.index).2⟩
  else ⟨swept, s.queue⟩

def backwardSweep (kind : Kind) (mask : Vector α n) (visits : List (Visit n))
    (marker : Vector α n) (queue : Queue n) : Seeded α n :=
  visits.foldl (seedStep kind mask) ⟨⟨marker, 0⟩, queue⟩

/-! ## Drain -/

structure Drained (α : Type) (n : Nat) extends Seeded α n where
  pops : Nat

/-- A neighbor that lies behind and has not reached its mask takes the value and is queued. -/
def offer (kind : Kind) (mask : Vector α n) (value : α) (s : Drained α n) (q : Fin n) :
    Drained α n :=
  if kind.precedes (s.marker.get q) value && !Pixel.eq (s.marker.get q) (mask.get q) then
    { marker := s.marker.set q (kind.clamp value (mask.get q)) q.isLt
      updates := s.updates + 1
      queue := (s.queue.push q).2
      pops := s.pops }
  else s

/-- One index leaves the queue, and its value is offered to its neighbors. -/
def drainStep? (kind : Kind) (mask : Vector α n) (neighbors : Fin n → List (Fin n))
    (s : Drained α n) : Option (Drained α n) :=
  match s.queue.pop? with
  | none => none
  | some (p, queue) =>
      some ((neighbors p).foldl (offer kind mask (s.marker.get p))
        { s with queue, pops := s.pops + 1 })

def drainSteps (kind : Kind) (mask : Vector α n) (neighbors : Fin n → List (Fin n)) :
    Nat → Drained α n → Drained α n
  | 0, s => s
  | fuel + 1, s =>
      match drainStep? kind mask neighbors s with
      | none => s
      | some next => drainSteps kind mask neighbors fuel next

/-- Marker and mask hold at most `2 * n` values, so no element is updated more often than that,
and an index is popped at most once for each time it enters the queue. -/
def drainBound (queue : Queue n) : Nat := queue.size + 2 * n * n

def drain (kind : Kind) (mask : Vector α n) (neighbors : Fin n → List (Fin n))
    (marker : Vector α n) (queue : Queue n) : Drained α n :=
  drainSteps kind mask neighbors (drainBound queue) ⟨⟨⟨marker, 0⟩, queue⟩, 0⟩

structure Stats where
  forwardUpdates : Nat
  backwardUpdates : Nat
  seeds : Nat
  pops : Nat
  queueUpdates : Nat
deriving DecidableEq

def Stats.totalUpdates (s : Stats) : Nat :=
  s.forwardUpdates + s.backwardUpdates + s.queueUpdates

def propagate (kind : Kind) (schedule : Schedule n) (mask marker : Vector α n) :
    Vector α n × Stats :=
  let swept := forwardSweep kind mask schedule.forward marker
  let seeded := backwardSweep kind mask schedule.backward swept.marker (Queue.empty n)
  let drained := drain kind mask schedule.neighbors seeded.marker seeded.queue
  (drained.marker,
    { forwardUpdates := swept.updates
      backwardUpdates := seeded.updates
      seeds := seeded.queue.size
      pops := drained.pops
      queueUpdates := drained.updates })

end Morphology

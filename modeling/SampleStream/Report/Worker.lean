import SampleStream.Queue.Bounded
import SampleStream.Report.Basic

/-!
# Collecting reports

A worker services the link on which the device reports. It puts every report
into a bounded queue and never waits for room there: when nobody takes the
reports, the oldest ones are evicted. It ends with its link, and it ends when a
report carries a time that cannot be reckoned.
-/

namespace SampleStream

/-- A worker, its queue, and the markers it showed, oldest first. -/
structure ReportWorker where
  order : ByteOrder
  rate : Float
  channel : Nat
  queue : BoundedQueue Report
  markers : List Marker := []
  running : Bool := true

namespace ReportWorker

/-- Shows the marker of a report and queues it. -/
def accept (w : ReportWorker) (r : Report) : ReportWorker :=
  { w with
    markers := w.markers ++ r.event.marker.toList
    queue := w.queue.pushEvicting r }

/-- What the worker does with a frame. -/
def take (w : ReportWorker) (frame : Bytes) : ReportWorker :=
  if w.running then
    match Report.ofFrame w.order frame w.rate w.channel with
    | none => { w with running := false }
    | some none => w
    | some (some r) => w.accept r
  else w

/-- The worker after its link is closed. -/
def close (w : ReportWorker) : ReportWorker := { w with running := false }

/-- The worker after a script of frames, with `none` where none came in time,
and the end of the link. -/
def run (w : ReportWorker) (script : List (Option Bytes)) : ReportWorker :=
  (script.foldl (fun w event => event.elim w w.take) w).close

end ReportWorker
end SampleStream

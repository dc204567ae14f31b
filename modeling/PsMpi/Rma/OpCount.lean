import Mathlib.Algebra.Order.Ring.Int

/-!
# The operation counters of a window

A window counts its RMA operations three times (`mpidpre.h:634-636`):
-/

namespace PsMpi.Rma

/-- `MPID_DEV_WIN_DECL` (`mpidpre.h:634-636`). -/
structure OpCount (ι : Type*) where
  rmaPutsAccs : ι → Int
  rmaSourceRankReceived : ι → Int
  rmaPutsAccsReceived : Int

namespace OpCount

variable {ι : Type*} [DecidableEq ι]

/-- `MPID_Win_create` (`mpid_rma.c:323,376-377`). -/
def init : OpCount ι := ⟨fun _ => 0, fun _ => 0, 0⟩

/-- `MPIDI_PSP_Put_generic` (`mpid_rma_put.c:177,223`) and its counterparts in
`mpid_rma_accumulate.c`. -/
def opIssued (w : OpCount ι) (target : ι) : OpCount ι :=
  { w with rmaPutsAccs := Function.update w.rmaPutsAccs target (w.rmaPutsAccs target + 1) }

/-- `rma_put_receive_done` (:281-283), `rma_accumulate_receive_done`
(`mpid_rma_accumulate.c:391-393`) and the target callbacks (`mpid_rma_callbacks.c:120-202`). -/
def opArrived (w : OpCount ι) (src : ι) : OpCount ι :=
  { w with
    rmaPutsAccsReceived := w.rmaPutsAccsReceived + 1
    rmaSourceRankReceived :=
      Function.update w.rmaSourceRankReceived src (w.rmaSourceRankReceived src - 1) }

/-- `MPID_do_recv_rma_unlock_req` (`mpid_rma_sync.c:544`), `MPID_do_recv_rma_flush_req`
(:764). -/
def ctrlReqBegin (w : OpCount ι) (src : ι) (rmaOpCounter : Int) : OpCount ι :=
  { w with
    rmaSourceRankReceived :=
      Function.update w.rmaSourceRankReceived src (w.rmaSourceRankReceived src + rmaOpCounter) }

/-- `:380,555,775`. -/
def allArrived (w : OpCount ι) (src : ι) : Prop := w.rmaSourceRankReceived src = 0

instance (w : OpCount ι) (src : ι) : Decidable (w.allArrived src) :=
  inferInstanceAs (Decidable (_ = _))

/-- `MPID_do_recv_rma_unlock_req` (:558), `MPID_do_recv_rma_flush_req`
(:778). -/
def ctrlReqEnd (w : OpCount ι) (rmaOpCounter : Int) : OpCount ι :=
  { w with rmaPutsAccsReceived := w.rmaPutsAccsReceived - rmaOpCounter }

/-- `MPIDI_PSP_RecvRmaCtrl` (`mpid_psp_ctrl_msgs.c:237-241`). -/
def recvComplete (w : OpCount ι) (src : ι) (rmaOpCounter : Int) : OpCount ι :=
  { w with
    rmaSourceRankReceived :=
      Function.update w.rmaSourceRankReceived src (w.rmaSourceRankReceived src + rmaOpCounter)
    rmaPutsAccsReceived := w.rmaPutsAccsReceived - rmaOpCounter }

/-- `mpid_rma_sync.c:329,663,810,846`. -/
def resetTarget (w : OpCount ι) (target : ι) : OpCount ι :=
  { w with rmaPutsAccs := Function.update w.rmaPutsAccs target 0 }

/-- `MPID_Win_fence` (:174-178). -/
def fenceReset (_ : OpCount ι) : OpCount ι := init

end OpCount

end PsMpi.Rma

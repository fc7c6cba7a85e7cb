import ShieldTv.Adb.Proofs.Authentication
import ShieldTv.Adb.Proofs.ClosedPeers
import ShieldTv.Adb.Proofs.Isolation
import ShieldTv.Applypatch.Proofs.PatchRoundTrip
import ShieldTv.Binder.Proofs.BestFit
import ShieldTv.Binder.Proofs.ParcelRoundTrip
import ShieldTv.Bionic.Proofs.PropInfo
import ShieldTv.Bionic.Proofs.PropertyMap
import ShieldTv.Ext4Utils.Proofs.Restart
import ShieldTv.Gui.Proofs.FailedDequeue
import ShieldTv.Gui.Proofs.FrameOrder
import ShieldTv.Input.Proofs.Acknowledgement
import ShieldTv.Input.Proofs.DeadChannel
import ShieldTv.Installd.Proofs.Paths
import ShieldTv.Libmincrypt.Proofs.DsaSig
import ShieldTv.Libmincrypt.Proofs.P256
import ShieldTv.Libmincrypt.Proofs.Rsa
import ShieldTv.Libmincrypt.Proofs.Sha256
import ShieldTv.Libsparse.Proofs.Denotation
import ShieldTv.Libsparse.Proofs.Normal
import ShieldTv.Libutils.Proofs.Comparison
import ShieldTv.Libutils.Proofs.LinearTransform
import ShieldTv.Libutils.Proofs.LruCache
import ShieldTv.Libutils.Proofs.SortedVectorImpl
import ShieldTv.Libutils.Proofs.Storing
import ShieldTv.Libutils.Proofs.Unicode
import ShieldTv.Libutils.Proofs.VectorImpl
import ShieldTv.Recovery.Proofs.EndRecord
import ShieldTv.Recovery.Proofs.FuseSideload
import ShieldTv.Servicemanager.Proofs.Access
import ShieldTv.Ui.Proofs.Region
import ShieldTv.Updater.Proofs.NewData
import ShieldTv.Updater.Proofs.Returns
import ShieldTv.Updater.Proofs.StashBudget
import ShieldTv.Updater.Proofs.Verify

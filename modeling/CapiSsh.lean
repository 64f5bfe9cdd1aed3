import CapiSsh.Lib.Interference
import CapiSsh.Reconcile
import CapiSsh.HostGuarantees
import CapiSsh.RebootRecords
import CapiSsh.DryRun
import CapiSsh.Provisioned
import CapiSsh.WriteAhead
import CapiSsh.Coherence
import CapiSsh.Leaks
import CapiSsh.Finalizers
import CapiSsh.Credentials
import CapiSsh.KubeadmPatches
import CapiSsh.PauseChain
import CapiSsh.Releases
import CapiSsh.ApiExecutor
import CapiSsh.HostOperation
import CapiSsh.JobReceipts
import CapiSsh.HereDocuments
import CapiSsh.Redactions
import CapiSsh.ConditionMerging
import CapiSsh.PackageVersion
import CapiSsh.MergeGuarantees
import CapiSsh.InUse
import CapiSsh.StagingGuarantees
import CapiSsh.ReceiptOwners
import CapiSsh.LeaseGuarantees
import CapiSsh.ReconcileExclusion
import CapiSsh.CloudInjection
import CapiSsh.ClusterGuarantees

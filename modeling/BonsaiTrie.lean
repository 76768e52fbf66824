import BonsaiTrie.Proof.Backends
import BonsaiTrie.Proof.Binding
import BonsaiTrie.Proof.Builder
import BonsaiTrie.Proof.Classify
import BonsaiTrie.Proof.EdgeHash
import BonsaiTrie.Proof.Enumerate
import BonsaiTrie.Proof.Faults
import BonsaiTrie.Proof.FiniteMap
import BonsaiTrie.Proof.Isolation
import BonsaiTrie.Proof.LogFormat
import BonsaiTrie.Proof.Memos
import BonsaiTrie.Proof.Merge
import BonsaiTrie.Proof.Outage
import BonsaiTrie.Proof.Overlaid
import BonsaiTrie.Proof.Recorder
import BonsaiTrie.Proof.Reports
import BonsaiTrie.Proof.Restart
import BonsaiTrie.Proof.RootHash
import BonsaiTrie.Proof.Seek
import BonsaiTrie.Proof.Slices
import BonsaiTrie.Proof.VerifyEach

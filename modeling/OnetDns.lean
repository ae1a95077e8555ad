import OnetDns.Cluster.Vote
import OnetDns.Cluster.FollowerCommit
import OnetDns.Cluster.Durability
import OnetDns.Cluster.StateMachine
import OnetDns.Cache.FastLane
import OnetDns.Filter.Gate
import OnetDns.Quic.Exchange
import OnetDns.Quic.KeyAgreement
import OnetDns.Quic.Recovery
import OnetDns.Quic.QpackLink
import OnetDns.Dnssec.Anchor
import OnetDns.Dnssec.SignedAnswers
import OnetDns.Dnssec.Canonical
import OnetDns.Authority.Correct
import OnetDns.Recurse.LaneRuns
import OnetDns.Recurse.Delegations
import OnetDns.Cluster.Writes
import OnetDns.Core.LruCorrect
import OnetDns.Dhcp.Exclusive
import OnetDns.Filter.RegexCorrect
import OnetDns.Dhcp.Server6Runs
import OnetDns.Wasm.Sandbox
import OnetDns.Cluster.Replay
import OnetDns.Cluster.StateCheck
import OnetDns.Cluster.Messages
import OnetDns.Dns.NameBuffer
import OnetDns.Quic.Params
import OnetDns.Quic.AckFrame
import OnetDns.Quic.ReasmCheck
import OnetDns.Http2.Hpack
import OnetDns.Authority.Catalog
import OnetDns.Quic.NumberSets
import OnetDns.Net.Admission

import SpinelEbpf.Tcp.Composed
import SpinelEbpf.Tcp.Acks
import SpinelEbpf.Otlp.Assemble
import SpinelEbpf.Otlp.ThreadSpans
import SpinelEbpf.Otlp.Children
import SpinelEbpf.Otlp.Bounded
import SpinelEbpf.Otlp.Log2Fold
import SpinelEbpf.Otlp.JsonData
import SpinelEbpf.Otlp.RedisCommand
import SpinelEbpf.Otlp.DnsQname
import SpinelEbpf.Otlp.Traceparent
import SpinelEbpf.Otlp.HttpDuration
import SpinelEbpf.Otlp.KubepodsPath
import SpinelEbpf.Consumer.Named
import SpinelEbpf.Latency.Guard
import SpinelEbpf.Offcpu.Attribution
import SpinelEbpf.Runtime.Leaks
import SpinelEbpf.Runtime.FrameCache
import SpinelEbpf.Runtime.Deadlocks
import SpinelEbpf.Amp.Cost
import SpinelEbpf.Amp.Access
import SpinelEbpf.Amp.RingRun
import SpinelEbpf.Amp.HotSwapSound
import SpinelEbpf.Amp.Leak
import SpinelEbpf.Amp.Cached
import SpinelEbpf.Amp.CapabilityWord
import SpinelEbpf.Amp.Admit
import SpinelEbpf.Partition.Classify
import SpinelEbpf.Partition.Closure
import SpinelEbpf.Record.Releases
import SpinelEbpf.Record.Unpack
import SpinelEbpf.Record.LayoutValid
import SpinelEbpf.Codegen.PathSearch
import SpinelEbpf.Codegen.ArenaHash
import SpinelEbpf.Codegen.CommonFilter
import SpinelEbpf.Codegen.AmpSigned
import SpinelEbpf.Codegen.CAst
import SpinelEbpf.Codegen.Arith
import SpinelEbpf.Codegen.Loops
import SpinelEbpf.Codegen.Naming
import SpinelEbpf.Codegen.ReactorHandlers
import SpinelEbpf.Ir.Text

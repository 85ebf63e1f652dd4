import Roomsync.Lib.Run
import Roomsync.Lib.Loop
import Roomsync.Lib.Memory
import Roomsync.Lib.Channel
import Roomsync.Lib.Kdf
import Roomsync.Lib.Aead
import Roomsync.Lib.Dict
import Roomsync.Lib.Python
import Roomsync.Lib.BitReverse
import Roomsync.Lib.Dft
import Roomsync.Lib.Smoothing
import Roomsync.Lib.Lms
import Roomsync.Lib.Levinson
import Roomsync.Lib.Toeplitz
import Roomsync.Lib.Recurrence
import Roomsync.Encryption.Crypto
import Roomsync.Encryption.Signal.Frame
import Roomsync.Encryption.Signal.Desync
import Roomsync.Encryption.Signal.Call
import Roomsync.Encryption.Signal.Secrecy
import Roomsync.Encryption.Signal.Mirror
import Roomsync.Encryption.Signal.Outsiders
import Roomsync.Encryption.Signal.X3dh
import Roomsync.Encryption.Signal.Separation
import Roomsync.Encryption.Mls.Group
import Roomsync.Encryption.Mls.Frame
import Roomsync.Encryption.Mls.Epoch
import Roomsync.Encryption.Mls.Nonce
import Roomsync.Encryption.Mls.NonceOrder
import Roomsync.Encryption.Mls.Members
import Roomsync.Encryption.Mls.Membership
import Roomsync.Encryption.Mls.Joiner
import Roomsync.Encryption.Mls.Network
import Roomsync.Coordinator.ReferenceBus
import Roomsync.Coordinator.Receive
import Roomsync.Coordinator.Discovery
import Roomsync.Coordinator.ChangeLog
import Roomsync.Coordinator.Jitter
import Roomsync.Coordinator.Multicast
import Roomsync.Coordinator.PeerView
import Roomsync.Coordinator.PeerList
import Roomsync.Coordinator.Relay
import Roomsync.Coordinator.RelayStream
import Roomsync.Coordinator.Wire
import Roomsync.Pipeline.Noise.Fft
import Roomsync.Pipeline.Noise.Reversal
import Roomsync.Pipeline.Noise.Suppressor
import Roomsync.Pipeline.Noise.Spectrum
import Roomsync.Pipeline.Noise.Symmetry
import Roomsync.Pipeline.Noise.Attenuation
import Roomsync.Pipeline.Noise.Stationary
import Roomsync.Pipeline.Noise.Transparency
import Roomsync.Pipeline.Aec.Processor
import Roomsync.Pipeline.Aec.Nlms
import Roomsync.Pipeline.Aec.Distance
import Roomsync.Pipeline.Aec.Erle
import Roomsync.Pipeline.Aec.DoubleTalk
import Roomsync.Pipeline.Aec.Superposition
import Roomsync.Pipeline.Plc.Processor
import Roomsync.Pipeline.Plc.Conceal
import Roomsync.Pipeline.Plc.History
import Roomsync.Pipeline.Plc.Levinson
import Roomsync.Pipeline.Plc.Audible
import Roomsync.Pipeline.Plc.Bounded
import Roomsync.Pipeline.Orchestrator
import Roomsync.Pipeline.Range
import Roomsync.Pipeline.Reset
import Roomsync.Pipeline.Silence
import Roomsync.Pipeline.Burst
import Roomsync.Pipeline.LossCounter
import Roomsync.Pipeline.Polarity
import Roomsync.Pipeline.Pause
import Roomsync.Pipeline.Onnx.Build
import Roomsync.Pipeline.Onnx.Lpcnet
import Roomsync.App.PipelineBridge
import Roomsync.App.RoomCode
import Roomsync.App.OneWorker
import Roomsync.App.Stats
import Roomsync.App.Page
import Roomsync.Maxine.Pipeline
import Roomsync.Maxine.Attempt
import Roomsync.Maxine.Handles
import Roomsync.Maxine.Loaded
import Roomsync.Maxine.Retry
import Roomsync.Maxine.Build
